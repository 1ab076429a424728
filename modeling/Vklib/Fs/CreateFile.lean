import Vklib.Fs.CreateDir

/-!
# What a failed `create_file` leaves behind

`create_file` makes the directory of the new file when `stat` does not find it,
and only then opens the file.  Nothing takes the directory away again when
`fopen` fails.  In a directory that was just made, `fopen` fails for a reason
that can be read off the path: there is no name after the last slash, or one of
the two that every directory has, or the path is too long, or the call is
refused (`openWrite_in_new_dir`).  So `create_file_atomic_iff` says when a call
changes nothing but what it should.  A call that waits at a FIFO changes nothing
and reports nothing.
-/

namespace Vklib.Fs

open Vklib.Posix

/-! ## The parts of a path -/

/-- `filename`: what is after the last slash. -/
def filename (path : Bytes) : Bytes := (path.reverse.takeWhile (· ≠ 47)).reverse

theorem slash_notMem_filename (path : Bytes) : 47 ∉ filename path := by
  intro hmem
  have hslash := List.mem_takeWhile_imp (List.mem_reverse.mp hmem)
  simp at hslash

theorem dirPart_append_filename {path : Bytes} (h : 47 ∈ path) :
    path = dirPart path ++ 47 :: filename path := by
  have hne : path.reverse.dropWhile (· ≠ 47) ≠ [] := by
    intro hnil
    have hall := List.dropWhile_eq_nil_iff.mp hnil 47 (List.mem_reverse.mpr h)
    simp at hall
  obtain ⟨c, rest, hrest⟩ := List.exists_cons_of_ne_nil hne
  have hc : c = 47 := by
    have hhead := List.head_dropWhile_not (fun c : UInt8 => decide (c ≠ 47)) hne
    simp only [hrest, List.head_cons] at hhead
    simpa using hhead
  have hsplit := List.takeWhile_append_dropWhile (p := fun c : UInt8 => decide (c ≠ 47))
    (l := path.reverse)
  rw [hrest, hc] at hsplit
  have hpath := congrArg List.reverse hsplit
  rw [List.reverse_reverse, List.reverse_append, List.reverse_cons] at hpath
  unfold dirPart filename
  rw [if_pos h, hrest, List.tail_cons]
  rw [List.append_assoc] at hpath
  exact hpath.symm

/-! ## A file in a new directory -/

section

variable {K : Kernel} {s : FS} {path name : Bytes}

theorem endsInSlash_of_notMem (hne : name ≠ []) (hslash : 47 ∉ name) (path : Bytes) :
    endsInSlash (path ++ 47 :: name) = false := by
  unfold endsInSlash
  rw [List.getLast?_append, List.getLast?_cons_of_ne_nil hne]
  cases h : name.getLast? with
  | none => exact absurd (List.getLast?_eq_none_iff.mp h) hne
  | some c =>
    have hc : c ≠ 47 := fun heq => hslash (heq ▸ List.mem_of_getLast? h)
    simpa using hc

theorem steps_of_notMem (hne : name ≠ []) (hslash : 47 ∉ name) (path : Bytes) :
    steps (path ++ 47 :: name) = names path ++ [name] := by
  unfold steps names
  rw [endsInSlash_of_notMem hne hslash, pieces_append_cons _ _ _ (by simp),
    pieces_eq_singleton hne]
  · simp
  · intro c hc
    have hne' : c ≠ 47 := fun heq => hslash (heq ▸ hc)
    simpa using hne'

/-- Where a path leads whose last name lies in a directory that `mkdir` has just
made: to nothing, unless it is one of the two names that every directory has. -/
theorem resolve_in_new_dir {dir : Loc} {last : Name} (hlast : IsName last)
    (hparent : resolveParent K s path = .ok (dir, last)) (hdir : s.lookup dir = some .dir)
    (hfree : s.lookup (last :: dir) = none) (hne : name ≠ []) (hslash : 47 ∉ name) :
    ∃ left, ∀ r, resolve K (s.add dir last .dir) (path ++ 47 :: name) = .ok r ↔
      (path ++ 47 :: name).length < K.pathMax ∧
        (if name = bytes "." then .object (last :: dir) left
          else if name = bytes ".." then .object dir left
          else .missing (name :: last :: dir)) = r := by
  have hpath : path ≠ [] := (resolveParent_eq_ok.mp hparent).1.1
  have hnew : (s.add dir last .dir).lookup (last :: dir) = some .dir := by
    rw [FS.lookup_add hlast hdir hfree, if_pos rfl]
  obtain ⟨cur, left, hstart, hwalk⟩ := leads_of_mkdir hlast hparent hfree
  have hlastStep : walk (s.add dir last .dir) left (last :: dir) [name] =
      .ok (if name = bytes "." then .object (last :: dir) left
        else if name = bytes ".." then .object dir left
        else .missing (name :: last :: dir)) := by
    rw [walk_cons hnew, lookup_in_new_dir hlast hdir hfree]
    split
    · exact walk_nil ..
    split
    · exact walk_nil ..
    · rfl
  refine ⟨left, fun r => ?_⟩
  rw [resolve_eq_ok, steps_of_notMem hne hslash, start_append hpath]
  constructor
  · intro h
    obtain ⟨hfits, cur', hstart', hwalk'⟩ := h
    rw [hstart, Except.ok.injEq] at hstart'
    rw [← hstart', walk_append, hwalk] at hwalk'
    exact ⟨hfits.2, Except.ok.inj (hlastStep.symm.trans hwalk')⟩
  · intro h
    obtain ⟨hshort, rfl⟩ := h
    refine ⟨⟨by simp, hshort⟩, cur, hstart, ?_⟩
    rw [walk_append, hwalk]
    exact hlastStep

/-- There is no FIFO at the end of a path into a directory that `mkdir` has just
made. -/
theorem leadsToFifo_in_new_dir {dir : Loc} {last : Name} (hlast : IsName last)
    (hparent : resolveParent K s path = .ok (dir, last)) (hdir : s.lookup dir = some .dir)
    (hfree : s.lookup (last :: dir) = none) (hslash : 47 ∉ name) :
    leadsToFifo K (s.add dir last .dir) (path ++ 47 :: name) = false := by
  unfold leadsToFifo
  cases hresolve : resolve K (s.add dir last .dir) (path ++ 47 :: name) with
  | error e => rfl
  | ok r =>
    cases r with
    | missing loc => rfl
    | object loc left =>
      suffices hlookup : (s.add dir last .dir).lookup loc = some .dir by simp [hlookup]
      by_cases hne : name = []
      · -- a slash at the end leads on from directories only
        have hleads := (resolve_eq_object.mp ⟨left, hresolve⟩).2
        exact (leads_steps.mp hleads).2 (by simp [hne, endsInSlash])
      obtain ⟨left', hnew⟩ := resolve_in_new_dir hlast hparent hdir hfree hne hslash
      have hreached := ((hnew _).mp hresolve).2
      by_cases hdot : name = bytes "."
      · rw [if_pos hdot, Reached.object.injEq] at hreached
        rw [← hreached.1, FS.lookup_add hlast hdir hfree, if_pos rfl]
      by_cases hdots : name = bytes ".."
      · rw [if_neg hdot, if_pos hdots, Reached.object.injEq] at hreached
        rw [← hreached.1]
        exact FS.lookup_add_of_some hdir dir last .dir
      · simp [if_neg hdot, if_neg hdots] at hreached

/-- Opening a file for writing in a directory that `mkdir` has just made. -/
theorem openWrite_in_new_dir {dir : Loc} {last : Name} (hlast : IsName last)
    (hparent : resolveParent K s path = .ok (dir, last)) (hdir : s.lookup dir = some .dir)
    (hfree : s.lookup (last :: dir) = none) (hslash : 47 ∉ name)
    (p : FS × Loc) :
    openWrite K (s.add dir last .dir) (path ++ 47 :: name) = .ok p ↔
      p = ((s.add dir last .dir).add (last :: dir) name (.file []), name :: last :: dir) ∧
        K.refuses .openWrite (path ++ 47 :: name) = none ∧
          (path ++ 47 :: name).length < K.pathMax ∧
            name ≠ [] ∧ name ≠ bytes "." ∧ name ≠ bytes ".." := by
  constructor
  · intro h
    have hrefuses := (fopen_eq_ok.mp h).1
    obtain ⟨s', loc⟩ := p
    obtain ⟨hends, r, hr, hcase⟩ := openWrite_eq_ok h
    have hne : name ≠ [] := by
      intro hnil
      simp [hnil, endsInSlash] at hends
    obtain ⟨left, hresolve⟩ := resolve_in_new_dir hlast hparent hdir hfree hne hslash
    obtain ⟨hshort, hreached⟩ := (hresolve r).mp hr
    -- neither of the two names that every directory has leads to a file
    have hfile {l : Loc} {left : Nat} (hobject : .object l left = r)
        (hl : (s.add dir last .dir).lookup l = some .dir) : False := by
      rcases hcase with ⟨-, -, -, hmissing, -⟩ | ⟨left', old, hobject', hold, -⟩
      · rw [← hobject] at hmissing
        simp at hmissing
      · rw [← hobject, Reached.object.injEq] at hobject'
        rw [← hobject'.1, hl] at hold
        simp at hold
    by_cases hdot : name = bytes "."
    · rw [if_pos hdot] at hreached
      exact (hfile hreached (by rw [FS.lookup_add hlast hdir hfree, if_pos rfl])).elim
    by_cases hdots : name = bytes ".."
    · rw [if_neg hdot, if_pos hdots] at hreached
      exact (hfile hreached (FS.lookup_add_of_some hdir dir last .dir)).elim
    rw [if_neg hdot, if_neg hdots] at hreached
    refine ⟨?_, hrefuses, hshort, hne, hdot, hdots⟩
    rcases hcase with ⟨name', dir', rfl, hmissing, rfl⟩ | ⟨left', old, hobject, -, -⟩
    · rw [← hreached, Reached.missing.injEq, List.cons.injEq] at hmissing
      obtain ⟨rfl, rfl⟩ := hmissing
      rfl
    · rw [← hreached] at hobject
      simp at hobject
  · intro h
    obtain ⟨rfl, hrefuses, hshort, hne, hdot, hdots⟩ := h
    obtain ⟨left, hresolve⟩ := resolve_in_new_dir hlast hparent hdir hfree hne hslash
    have hr := (hresolve (.missing (name :: last :: dir))).mpr
      ⟨hshort, by rw [if_neg hdot, if_neg hdots]⟩
    refine fopen_eq_ok.mpr ⟨hrefuses, ?_, by simp [leadsToFifo, hr]⟩
    rw [endsInSlash_of_notMem hne hslash, if_neg (by simp), hr]
    rfl

end

/-! ## The result of `create_file` -/

section

variable (K : Kernel) (path : Bytes) (w : World)

/-- A call of `create_file` changes nothing, or only the file and its directory
when that was missing. -/
structure Atomic (w' : World) (reply : Reply) : Prop where
  failed : reply ≠ .boolean true → w'.fs = w.fs
  made : reply = .boolean true → w'.fs.cwd = w.fs.cwd ∧
    ∃ loc left, resolve K w'.fs (cString path) = .ok (.object loc left) ∧
      ∀ l, w'.fs.lookup l ≠ w.fs.lookup l → l = loc ∨ l = loc.tail ∧ w.fs.lookup l = none

/-- A directory that `create_file` makes gets its file: the path has a name
after its last slash, is not too long and is not refused. -/
def Follows : Prop :=
  ∀ e s', Posix.stat K w.fs (dirPart (cString path)) = .error e →
    Posix.mkdir K w.fs (dirPart (cString path)) = .ok s' →
      K.refuses .openWrite (cString path) = none ∧ (cString path).length < K.pathMax ∧
        filename (cString path) ≠ [] ∧ filename (cString path) ≠ bytes "." ∧
          filename (cString path) ≠ bytes ".."

variable {K path w}

/-- The path leads to a FIFO, and the `fopen` on it is not refused. -/
def Waits (K : Kernel) (path : Bytes) (w : World) : Prop :=
  K.refuses .openWrite (cString path) = none ∧ leadsToFifo K w.fs (cString path) = true

/-- The directory was there, or could not be made, or was made. -/
theorem ensureDir_cases (K : Kernel) (dir : Bytes) (w : World) :
    ∃ made, ensureDir K dir w = .ok (made, true) ∧
      ((made.fs = w.fs ∧ ∀ e s', Posix.stat K w.fs dir = .error e →
          Posix.mkdir K w.fs dir ≠ .ok s') ∨
        ∃ e, Posix.stat K w.fs dir = .error e ∧ Posix.mkdir K w.fs dir = .ok made.fs) := by
  unfold ensureDir
  cases hstat : Posix.stat K w.fs dir with
  | ok node => exact ⟨w, rfl, Or.inl ⟨rfl, fun e s' h => by simp at h⟩⟩
  | error e =>
    unfold _compat_mkdir
    simp only [hstat]
    cases hmkdir : Posix.mkdir K w.fs dir with
    | ok s' => exact ⟨_, rfl, Or.inr ⟨e, rfl, rfl⟩⟩
    | error e' => exact ⟨_, rfl, Or.inl ⟨rfl, fun _ s' _ => by simp⟩⟩

/-- A directory that is made is the part of the path before its last slash. -/
theorem slash_of_mkdir {dir : Bytes} {s s' : FS} (h : Posix.mkdir K s (dirPart dir) = .ok s') :
    47 ∈ dir := by
  by_contra hslash
  obtain ⟨-, hmake⟩ := attempt_eq_ok.mp h
  obtain ⟨⟨place, name⟩, hparent, hadd⟩ := bind_eq_ok.mp hmake
  obtain ⟨-, xs, hxs, -⟩ := resolveParent_eq_ok.mp hparent
  rw [dirPart, if_neg hslash, show names (bytes ".") = [] ++ [bytes "."] from by decide] at hxs
  have hname := (List.append_inj' hxs rfl).2
  simp only [List.cons.injEq, and_true] at hname
  simp [← hname] at hadd

/-- A new directory and the file in it. -/
theorem openWrite_after_mkdir {path : Bytes} (hpath : NulFree path) {s s' : FS}
    (h : Posix.mkdir K s (dirPart path) = .ok s') :
    ∃ place, s.lookup place = none ∧ (∀ l, l ≠ place → s'.lookup l = s.lookup l) ∧
      s'.lookup place = some .dir ∧ s'.cwd = s.cwd ∧ leadsToFifo K s' path = false ∧
      ∀ p, openWrite K s' path = .ok p ↔
        p = (s'.add place (filename path) (.file []), filename path :: place) ∧
          K.refuses .openWrite path = none ∧ path.length < K.pathMax ∧
            filename path ≠ [] ∧ filename path ≠ bytes "." ∧ filename path ≠ bytes ".." := by
  have hsplit := dirPart_append_filename (slash_of_mkdir h)
  have hdirPart : NulFree (dirPart path) := by
    intro hnul
    apply hpath
    rw [hsplit]
    exact List.mem_append_left _ hnul
  obtain ⟨dir, name, hname, hparent, hdir, hfree, rfl⟩ := mkdir_place hdirPart h
  have hlookup := FS.lookup_add hname hdir hfree .dir
  refine ⟨name :: dir, hfree, fun l hl => by rw [hlookup, if_neg hl], by rw [hlookup, if_pos rfl],
    FS.cwd_add s dir name .dir, ?_, fun p => ?_⟩
  · have hfifo := leadsToFifo_in_new_dir hname hparent hdir hfree (slash_notMem_filename path)
    rw [← hsplit] at hfifo
    exact hfifo
  · have hopen := openWrite_in_new_dir hname hparent hdir hfree (slash_notMem_filename path) p
    rw [← hsplit] at hopen
    exact hopen

/-- `writeFile` returns the error of `fopen`, or writes. -/
theorem writeFile_eq_ok {contents : Bytes} {made w' : World} {reply : Reply} :
    writeFile K path contents made = .ok (w', reply) ↔
      (∃ e, openWrite K made.fs path = .error e ∧ w' = { made with errno := e } ∧
        reply = .failure (bytes "fopen") e) ∨
      ∃ s' loc, openWrite K made.fs path = .ok (s', loc) ∧ reply = .boolean true ∧
        w' = { made with fs := s'.write loc (contents.take (K.accepts path contents)) } := by
  unfold writeFile
  cases openWrite K made.fs path with
  | error e => simp [eq_comm]
  | ok p =>
    obtain ⟨s', loc⟩ := p
    simp [eq_comm, and_comm]
  | undefined => simp
  | outOfFuel => simp

/-- `writeFile` returns unless its path leads to a FIFO. -/
theorem writeFile_cases (K : Kernel) (path contents : Bytes) (made : World) :
    (∃ w' reply, writeFile K path contents made = .ok (w', reply)) ∨
      (writeFile K path contents made = .outOfFuel ∧ K.refuses .openWrite path = none ∧
        leadsToFifo K made.fs path = true) := by
  unfold writeFile
  cases hopen : openWrite K made.fs path with
  | ok p => exact Or.inl ⟨_, _, rfl⟩
  | error e => exact Or.inl ⟨_, _, rfl⟩
  | undefined => exact absurd hopen fopen_ne_undefined
  | outOfFuel => exact Or.inr ⟨rfl, fopen_eq_outOfFuel.mp hopen⟩

/-- A file in the directory that was there. -/
theorem atomic_of_same {contents : Bytes} {made w' : World} {reply : Reply} (hfs : made.fs = w.fs)
    (h : writeFile K (cString path) contents made = .ok (w', reply)) : Atomic K path w w' reply := by
  constructor
  · intro hfailed
    rcases writeFile_eq_ok.mp h with ⟨e, -, rfl, -⟩ | ⟨s', loc, -, htrue, -⟩
    · exact hfs
    · exact absurd htrue hfailed
  · rintro rfl
    obtain ⟨loc, hwritten⟩ := writeFile_eq_true (nulFree_cString path) h
    obtain ⟨left, hresolve⟩ := hwritten.leads
    refine ⟨hwritten.cwd.trans (by rw [hfs]), loc, left, hresolve, fun l hl => Or.inl ?_⟩
    by_contra hne
    rw [hwritten.lookup, if_neg hne, hfs] at hl
    exact hl rfl

/-- A file in a directory that was made: if it cannot be opened, the directory
is left behind. -/
theorem atomic_of_made_iff {contents : Bytes} {made : World}
    (hmkdir : Posix.mkdir K w.fs (dirPart (cString path)) = .ok made.fs) :
    (∃ w' reply, writeFile K (cString path) contents made = .ok (w', reply) ∧
        Atomic K path w w' reply) ↔
      ∃ p, openWrite K made.fs (cString path) = .ok p := by
  obtain ⟨place, hfree, hsame, hnew, hcwd, -, hopen⟩ :=
    openWrite_after_mkdir (nulFree_cString path) hmkdir
  constructor
  · rintro ⟨w', reply, hwrite, hatomic⟩
    rcases writeFile_eq_ok.mp hwrite with ⟨e, -, rfl, hreply⟩ | ⟨s', loc, hopened, -⟩
    · have hunchanged : made.fs = w.fs := hatomic.failed (by simp [hreply])
      rw [← hunchanged, hnew] at hfree
      simp at hfree
    · exact ⟨_, hopened⟩
  · rintro ⟨⟨s', loc⟩, hopened⟩
    obtain ⟨rfl, rfl⟩ := Prod.mk.inj ((hopen _).mp hopened).1
    refine ⟨_, _, writeFile_eq_ok.mpr (Or.inr ⟨_, _, hopened, rfl, rfl⟩), by simp, fun _ => ?_⟩
    have hwritten := written_of_openWrite (nulFree_cString path) hopened
      (contents.take (K.accepts (cString path) contents))
    obtain ⟨left, hresolve⟩ := hwritten.leads
    refine ⟨hwritten.cwd.trans hcwd, _, left, hresolve, fun l hl => ?_⟩
    by_cases hloc : l = filename (cString path) :: place
    · exact Or.inl hloc
    rw [hwritten.lookup, if_neg hloc] at hl
    have hplace : l = place := by
      by_contra hplace
      exact hl (hsame l hplace)
    exact Or.inr ⟨hplace, hplace ▸ hfree⟩

/-- `create_file` returns and is atomic, or waits at a FIFO, exactly when its
path is not empty and the file follows whenever its directory is made. -/
theorem create_file_atomic_iff (K : Kernel) (path contents : Bytes) (w : World) :
    ((∃ w' reply, fs_create_file K path contents w = .ok (w', reply) ∧ Atomic K path w w' reply) ∨
      (fs_create_file K path contents w = .outOfFuel ∧ Waits K path w)) ↔
      cString path ≠ [] ∧ Follows K path w := by
  by_cases hempty : cString path = []
  · simp [fs_create_file, hempty]
  obtain ⟨made, hensure, hcase⟩ := ensureDir_cases K (dirPart (cString path)) w
  have hrun : fs_create_file K path contents w = writeFile K (cString path) (cString contents) made := by
    unfold fs_create_file
    rw [if_neg hempty, hensure]
    rfl
  rw [hrun, and_iff_right hempty]
  rcases hcase with ⟨hfs, hnone⟩ | ⟨e, hstat, hmkdir⟩
  · refine iff_of_true ?_ fun e s' hstat hmkdir => absurd hmkdir (hnone e s' hstat)
    rcases writeFile_cases K (cString path) (cString contents) made with
      ⟨w', reply, hwrite⟩ | ⟨hwrite, hrefuses, hfifo⟩
    · exact Or.inl ⟨w', reply, hwrite, atomic_of_same hfs hwrite⟩
    · exact Or.inr ⟨hwrite, hrefuses, hfs ▸ hfifo⟩
  · obtain ⟨place, -, -, -, -, hnofifo, hopen⟩ :=
      openWrite_after_mkdir (nulFree_cString path) hmkdir
    have hcomes : writeFile K (cString path) (cString contents) made ≠ .outOfFuel := by
      rcases writeFile_cases K (cString path) (cString contents) made with
        ⟨w', reply, hwrite⟩ | ⟨-, -, hfifo⟩
      · simp [hwrite]
      · simp [hnofifo] at hfifo
    rw [or_iff_left fun h => hcomes h.1, atomic_of_made_iff hmkdir]
    constructor
    · rintro ⟨p, hp⟩ e' s' - hmkdir'
      exact ((hopen p).mp hp).2
    · intro hfollows
      exact ⟨_, (hopen _).mpr ⟨rfl, hfollows e made.fs hstat hmkdir⟩⟩

end

/-- `create_file("d/")` makes the directory `d` and then fails. -/
theorem trailing_slash_leaves_a_directory :
    ¬ ((∃ w' reply,
        fs_create_file permissive (bytes "d/") [] ⟨FS.bare, .ENOENT⟩ = .ok (w', reply) ∧
          Atomic permissive (bytes "d/") ⟨FS.bare, .ENOENT⟩ w' reply) ∨
      (fs_create_file permissive (bytes "d/") [] ⟨FS.bare, .ENOENT⟩ = .outOfFuel ∧
        Waits permissive (bytes "d/") ⟨FS.bare, .ENOENT⟩)) := by
  rintro (⟨w', reply, hrun, hatomic⟩ | ⟨-, -, hfifo⟩)
  swap
  · revert hfifo
    decide +kernel
  obtain ⟨hw, hreply⟩ := Prod.mk.inj (Outcome.ok.inj hrun)
  have hfs := hatomic.failed (by rw [← hreply]; decide +kernel)
  have hlookup : w'.fs.lookup [bytes "d"] = some .dir := by
    rw [← hw]
    decide +kernel
  rw [hfs] at hlookup
  revert hlookup
  decide +kernel

end Vklib.Fs
