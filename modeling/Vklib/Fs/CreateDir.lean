import Vklib.Fs.Observers

/-!
# When `create_dir` tells the truth

`_compat_mkdir` asks `stat` whether something is at the path, calls `mkdir` when
there is nothing, and reports success whatever `mkdir` returned.  When there is
something, `stat` has written over the stack and nothing is known.  So
`create_dir` is right exactly when `mkdir` succeeds where it comes to
`_compat_mkdir`, since there is nothing at the path then (`stat_of_mkdir`).  A
`mkdir` that succeeds leaves an empty directory at the end of the path
(`objectAt_of_mkdir`).

With `overwrite` the call of `mkdir` comes after the recursive removal, whose
failure is passed over when the error number is `ENOENT`.
-/

namespace Vklib.Fs

open Vklib.Posix

/-! ## The directory that `mkdir` makes -/

section

variable {K : Kernel} {s s' : FS} {path : Bytes}

/-- `mkdir` adds a directory under a name that was free. -/
theorem mkdir_place (hpath : NulFree path) (h : Posix.mkdir K s path = .ok s') :
    ∃ dir name, IsName name ∧ resolveParent K s path = .ok (dir, name) ∧
      s.lookup dir = some .dir ∧ s.lookup (name :: dir) = none ∧ s' = s.add dir name .dir := by
  obtain ⟨-, hmake⟩ := attempt_eq_ok.mp h
  obtain ⟨⟨dir, name⟩, hparent, hadd⟩ := bind_eq_ok.mp hmake
  obtain ⟨-, xs, hxs, -, hdir⟩ := resolveParent_eq_ok.mp hparent
  by_cases hdots : name = bytes "." ∨ name = bytes ".."
  · simp [hdots] at hadd
  rw [if_neg hdots] at hadd
  cases hfree : s.lookup (name :: dir) with
  | some node => simp [hfree] at hadd
  | none =>
    simp only [hfree, Except.ok.injEq] at hadd
    have hmem : name ∈ steps path := by
      unfold steps
      rw [hxs]
      simp
    have hname : IsName name :=
      isName_of_mem_steps hpath hmem (fun h => hdots (Or.inl h)) fun h => hdots (Or.inr h)
    exact ⟨dir, name, hname, hparent, hdir, hfree, hadd.symm⟩

theorem leftOf_add (s : FS) (dir : Loc) (name : Name) (node : Node) :
    LeftOf s (s.add dir name node) where
  part := by
    intro loc
    cases h : s.lookup loc with
    | none => exact Or.inl rfl
    | some old => exact Or.inr (FS.lookup_add_of_some h dir name node).symm
  cwd := Or.inl (FS.cwd_add s dir name node).symm

/-- The names of the path lead to the new directory. -/
theorem leads_of_mkdir {dir : Loc} {name : Name} (hname : IsName name)
    (hparent : resolveParent K s path = .ok (dir, name)) (hfree : s.lookup (name :: dir) = none) :
    Leads K (s.add dir name .dir) path (names path) (name :: dir) := by
  obtain ⟨-, xs, hxs, hleads, hdir⟩ := resolveParent_eq_ok.mp hparent
  obtain ⟨cur, budget, hstart, hwalk⟩ := hleads.mono (leftOf_add s dir name .dir)
  rw [hxs, leads_append]
  refine ⟨cur, dir, budget, hstart, hwalk, budget, ?_⟩
  rw [walk_cons (FS.lookup_add_of_some hdir dir name .dir), if_neg hname.2.2.2.1,
    if_neg hname.2.2.2.2, FS.lookup_add hname hdir hfree, if_pos rfl]
  exact walk_nil _ budget _

/-- There is nothing in the new directory. -/
theorem lookup_in_new_dir {dir : Loc} {name : Name} (hname : IsName name)
    (hdir : s.lookup dir = some .dir) (hfree : s.lookup (name :: dir) = none) (child : Name) :
    (s.add dir name .dir).lookup (child :: name :: dir) = none := by
  rw [FS.lookup_add hname hdir hfree, if_neg (by simp)]
  cases hnode : s.lookup (child :: name :: dir) with
  | none => rfl
  | some node =>
    have hparent := FS.lookup_parent hnode
    rw [hfree] at hparent
    simp at hparent

/-- `stat` finds nothing where `mkdir` makes a directory. -/
theorem stat_of_mkdir (hpath : NulFree path) (h : Posix.mkdir K s path = .ok s') :
    ∃ e, Posix.stat K s path = .error e := by
  obtain ⟨dir, name, hname, hparent, hdir, hfree, -⟩ := mkdir_place hpath h
  cases hstat : Posix.stat K s path with
  | error e => exact ⟨e, rfl⟩
  | ok node =>
    obtain ⟨-, -, loc, hleads, -⟩ := stat_eq_ok.mp hstat
    obtain ⟨-, xs, hxs, hleads', -⟩ := resolveParent_eq_ok.mp hparent
    have hnames := (leads_steps.mp hleads).1
    rw [hxs, leads_append] at hnames
    obtain ⟨cur, mid, budget, hstart, hwalk, left, hlast⟩ := hnames
    have hmid : mid = dir := Leads.unique ⟨cur, budget, hstart, hwalk⟩ hleads'
    rw [hmid, walk_cons hdir, if_neg hname.2.2.2.1, if_neg hname.2.2.2.2, hfree] at hlast
    simp at hlast

/-- The path of `mkdir` leads to the new directory, which is empty. -/
theorem objectAt_of_mkdir (hpath : NulFree path) (h : Posix.mkdir K s path = .ok s') :
    ∃ loc, objectAt K s' path = some (loc, .dir) ∧ s'.entries loc = [] := by
  obtain ⟨dir, name, hname, hparent, hdir, hfree, rfl⟩ := mkdir_place hpath h
  have hfits := (resolveParent_eq_ok.mp hparent).1
  have hnew : (s.add dir name .dir).lookup (name :: dir) = some .dir := by
    rw [FS.lookup_add hname hdir hfree, if_pos rfl]
  obtain ⟨left, hresolve⟩ := resolve_eq_object.mpr
    ⟨hfits, leads_steps.mpr ⟨leads_of_mkdir hname hparent hfree, fun _ => hnew⟩⟩
  refine ⟨name :: dir, by simp [objectAt, hresolve, hnew], ?_⟩
  apply List.eq_nil_iff_forall_not_mem.mpr
  intro child hchild
  obtain ⟨node, hnode⟩ := FS.mem_entries.mp hchild
  rw [lookup_in_new_dir hname hdir hfree] at hnode
  simp at hnode

end

/-! ## The recursion returns -/

section

variable {K : Kernel}

theorem removeEntries_returns (descend : Bytes → World → Outcome Empty (World × Bool))
    {path : Bytes} (hdescend : ∀ name w, ∃ r, descend (subpath path name) w = .ok r)
    (xs : List Name) (w : World) : ∃ w', removeEntries K descend path xs w = .ok w' := by
  induction xs generalizing w with
  | nil => exact ⟨w, rfl⟩
  | cons name rest ih =>
    unfold removeEntries
    by_cases hdots : name = bytes "." ∨ name = bytes ".."
    · rw [if_pos hdots]
      exact ih w
    rw [if_neg hdots]
    split
    · exact ih _
    · rename_i w₁ _
      obtain ⟨⟨w₂, b⟩, hrun⟩ := hdescend name w₁
      rw [hrun, Outcome.ok_bind]
      exact ih w₂

/-- The recursion returns, since every path on the way is short enough to
open. -/
theorem _compat_rmdir_returns {fuel : Nat} {path : Bytes} (hfuel : 0 < fuel)
    (hlong : K.pathMax < fuel + path.length) (recurse : Bool) (w : World) :
    ∃ w' removed, _compat_rmdir K fuel path recurse w = .ok (w', removed) := by
  induction fuel generalizing path recurse w with
  | zero => exact absurd hfuel (by omega)
  | succ fuel ih =>
    cases recurse with
    | false => exact ⟨_, _, rfl⟩
    | true =>
      simp only [_compat_rmdir, Bool.true_eq_false, if_false]
      cases hopen : opendir K w.fs path with
      | error e => exact ⟨_, _, rfl⟩
      | ok dir =>
        have hshort : path.length < K.pathMax := (opendir_eq_ok.mp hopen).2.1.2
        have hdescend : ∀ name w, ∃ r, _compat_rmdir K fuel (subpath path name) true w = .ok r := by
          intro name w
          have hlength := length_subpath path name
          have hdeep := @ih (subpath path name) (by omega) (by omega) true w
          obtain ⟨w', removed, hrun⟩ := hdeep
          exact ⟨_, hrun⟩
        obtain ⟨w₁, hrun⟩ := removeEntries_returns (K := K)
          (fun path => _compat_rmdir K fuel path true) hdescend (readdir K w.fs path dir) w
        exact ⟨_, _, by simp only [hrun, Outcome.ok_bind]; rfl⟩

theorem compat_rmdir_of_removalFuel (path : Bytes) (recurse : Bool) (w : World) :
    ∃ w' removed, _compat_rmdir K (removalFuel K) path recurse w = .ok (w', removed) := by
  apply _compat_rmdir_returns (Nat.succ_pos _)
  show K.pathMax < K.pathMax + 1 + path.length
  omega

end

/-! ## The result of `create_dir` -/

section

variable (K : Kernel) (path : Bytes) (overwrite : Bool) (w : World)

/-- `create_dir` calls `mkdir` in this file system: it comes to `_compat_mkdir`,
and there is nothing at the path. -/
def CallsMkdir (s : FS) : Prop :=
  ReachesMkdir K path overwrite w s ∧ ∃ e, Posix.stat K s (cString path) = .error e

/-- What the result of `create_dir` has to say. -/
structure Honest (w' : World) (reply : Reply) : Prop where
  made : reply = .boolean true → ∃ loc, objectAt K w'.fs (cString path) = some (loc, .dir) ∧
    (overwrite = true → w'.fs.entries loc = [])
  unchanged : reply ≠ .boolean true → overwrite = false → w'.fs = w.fs
  failed : ∀ s e, CallsMkdir K path overwrite w s → Posix.mkdir K s (cString path) = .error e →
    reply ≠ .boolean true

variable {K path overwrite w}

/-- `makeDir` makes the directory when `mkdir` does, and reports success. -/
theorem makeDir_of_mkdir {path : Bytes} (hpath : NulFree path) {w : World} {s' : FS}
    (hmkdir : Posix.mkdir K w.fs path = .ok s') :
    ∃ w', makeDir K path w = .ok (w', .boolean true) ∧ w'.fs = s' := by
  obtain ⟨e, hstat⟩ := stat_of_mkdir hpath hmkdir
  refine ⟨_, makeDir_eq_ok.mpr ⟨_compat_mkdir_eq_ok.mpr ⟨rfl, e, hstat, rfl⟩, rfl⟩, ?_⟩
  simp only [hmkdir]
  rfl

/-- `create_dir` returns and its result is honest exactly when `mkdir` succeeds
in the file system where it comes to `_compat_mkdir`. -/
theorem create_dir_honest_iff (K : Kernel) (path : Bytes) (overwrite : Bool) (w : World) :
    (∃ w' reply, fs_create_dir K path overwrite w = .ok (w', reply) ∧
      Honest K path overwrite w w' reply) ↔
      ∀ s, ReachesMkdir K path overwrite w s → ∃ s', Posix.mkdir K s (cString path) = .ok s' := by
  rcases fs_create_dir_cases overwrite (compat_rmdir_of_removalFuel (cString path) true w) with
    ⟨w₁, hrun, -, hreaches⟩ | ⟨w₁, hrun, hoverwrite, hreaches⟩
  · constructor
    · rintro ⟨w', reply, hrun', hhonest⟩ s hs
      have hmake := makeDir_eq_ok.mp (hrun.symm.trans hrun')
      obtain ⟨-, e, hstat, -⟩ := _compat_mkdir_eq_ok.mp hmake.1
      obtain rfl := (hreaches s).mp hs
      cases hmkdir : Posix.mkdir K w₁.fs (cString path) with
      | ok s' => exact ⟨s', rfl⟩
      | error e' => exact absurd hmake.2 (hhonest.failed w₁.fs e' ⟨hs, e, hstat⟩ hmkdir)
    · intro h
      obtain ⟨s', hmkdir⟩ := h w₁.fs ((hreaches _).mpr rfl)
      obtain ⟨w', hmake, hfs⟩ := makeDir_of_mkdir (nulFree_cString path) hmkdir
      refine ⟨w', .boolean true, hrun.trans hmake, fun _ => ?_, by simp, ?_⟩
      · obtain ⟨loc, hobject, hempty⟩ := objectAt_of_mkdir (nulFree_cString path) hmkdir
        rw [hfs]
        exact ⟨loc, hobject, fun _ => hempty⟩
      · intro s e hs hfailed
        rw [(hreaches s).mp hs.1, hmkdir] at hfailed
        simp at hfailed
  · constructor
    · intro _ s hs
      exact absurd hs (hreaches s)
    · intro _
      refine ⟨_, _, hrun, ?_, ?_, ?_⟩
      · intro htrue
        simp [World.failure] at htrue
      · intro _ hfalse
        simp [hoverwrite] at hfalse
      · intro s e hs
        exact absurd hs.1 (hreaches s)

end

/-- There is no directory `a`, so `mkdir("a/b")` fails. -/
theorem missing_parent_is_reported_as_made :
    ¬ ∃ w' reply, fs_create_dir permissive (bytes "a/b") false ⟨FS.bare, .ENOENT⟩ =
        .ok (w', reply) ∧ Honest permissive (bytes "a/b") false ⟨FS.bare, .ENOENT⟩ w' reply := by
  intro h
  obtain ⟨w', reply, hrun, hhonest⟩ := h
  obtain ⟨hw, hreply⟩ := Prod.mk.inj (Outcome.ok.inj hrun)
  obtain ⟨loc, hobject, -⟩ := hhonest.made hreply.symm
  have hnone : objectAt permissive w'.fs (cString (bytes "a/b")) = none := by
    rw [← hw]
    decide +kernel
  rw [hnone] at hobject
  simp at hobject

end Vklib.Fs
