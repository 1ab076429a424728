import Vklib.Fs.Complete

/-!
# What recursive removal leaves

A link to a directory stays: `unlink` is tried only on what `stat` calls a
regular file, whatever path leads to it, and `rmdir` refuses links.  Such an
entry is stuck (`Stuck`), and so is everything above it.  As long as nothing is
stuck, what the recursion does below a path stays below the directory there
(`_compat_rmdir_local`).

So an order that reads the branch of an object last comes to it when the rest of
the tree is gone, and what the recursion then does to it shows that it is
removable (`removable_of_complete`).
-/

namespace Vklib.Fs

open Vklib.Posix

/-! ## The invariant rule of the recursion -/

section

variable {K : Kernel} {P : FS → Prop}

/-- What the loop keeps when its removals and its recursive calls do. -/
theorem removeEntries_invariant {descend : Bytes → World → Outcome Empty (World × Bool)}
    (hfile : ∀ s path content s', P s → Posix.stat K s path = .ok (.file content) →
      Posix.remove K s path = .ok s' → P s')
    (hdescend : ∀ path w w' b, P w.fs → descend path w = .ok (w', b) → P w'.fs) {path : Bytes}
    {xs : List Name} {w w' : World} (hw : P w.fs)
    (h : removeEntries K descend path xs w = .ok w') : P w'.fs := by
  induction xs generalizing w with
  | nil => exact Outcome.ok.inj h ▸ hw
  | cons name rest ih =>
    unfold removeEntries at h
    by_cases hdots : name = bytes "." ∨ name = bytes ".."
    · rw [if_pos hdots] at h
      exact ih hw h
    rw [if_neg hdots] at h
    cases his : is_file K (subpath path name) w with
    | mk w₁ isfile =>
      have hfs : w₁.fs = w.fs := by
        rw [← @fs_is_file K (subpath path name) w, his]
      rw [his] at h
      cases isfile with
      | true =>
        obtain ⟨rfl, content, hstat⟩ := is_file_eq_true his
        refine ih ?_ h
        cases hremove : Posix.remove K w₁.fs (subpath path name) with
        | error e => exact hw
        | ok s' => exact hfile _ _ _ _ hw hstat hremove
      | false =>
        obtain ⟨⟨w₂, b⟩, hrun, hrest⟩ := Outcome.bind_eq_ok_iff.mp h
        exact ih (hdescend _ _ _ _ (hfs ▸ hw) hrun) hrest

/-- What the recursion keeps when its two kinds of removal do. -/
theorem _compat_rmdir_invariant
    (hfile : ∀ s path content s', P s → Posix.stat K s path = .ok (.file content) →
      Posix.remove K s path = .ok s' → P s')
    (hdir : ∀ s path s', P s → Posix.rmdir K s path = .ok s' → P s') {fuel : Nat} {path : Bytes}
    {w w' : World} {b : Bool} (hw : P w.fs)
    (h : _compat_rmdir K fuel path true w = .ok (w', b)) : P w'.fs := by
  induction fuel generalizing path w w' b with
  | zero => simp [_compat_rmdir] at h
  | succ fuel ih =>
    cases hopen : opendir K w.fs path with
    | error e =>
      simp only [_compat_rmdir, Bool.true_eq_false, if_false, hopen, Outcome.ok.injEq,
        Prod.mk.injEq] at h
      rw [← h.1]
      exact hw
    | ok dir =>
      obtain ⟨w₁, hrun, rfl⟩ := _compat_rmdir_eq_ok hopen h
      have hw₁ : P w₁.fs :=
        removeEntries_invariant hfile (fun path w w' b hw hdeep => ih hw hdeep) hw hrun
      cases hrmdir : Posix.rmdir K w₁.fs path with
      | error e => exact hw₁
      | ok s' => exact hdir _ _ _ hw₁ hrmdir

end

/-! ## Stuck entries -/

/-- A link that no path leads to as to a regular file. -/
structure Stuck (K : Kernel) (s : FS) (loc : Loc) : Prop where
  link : ∃ target, s.lookup loc = some (.link target)
  never : ∀ path dir name, resolveParent K s path = .ok (dir, name) → name :: dir = loc →
    ∀ content, Posix.stat K s path ≠ .ok (.file content)

section

variable {K : Kernel} {s s' : FS} {loc : Loc} {path : Bytes}

/-- A link to a directory is stuck. -/
theorem stuck_of_opendir {name : Name} (hname : IsName name) (hpath : path ≠ [])
    (hleads : Leads K s path (names path) loc) {target : Target}
    (hlink : s.lookup (name :: loc) = some (.link target)) {dir : Loc}
    (hopen : opendir K s (subpath path name) = .ok dir) : Stuck K s (name :: loc) := by
  refine ⟨⟨target, hlink⟩, fun path' dir' name' hparent heq content hstat => ?_⟩
  obtain ⟨rfl, rfl⟩ := List.cons.inj heq
  obtain ⟨-, -, hleads', hdir⟩ := opendir_eq_ok.mp hopen
  obtain ⟨-, -, loc', hloc', hfile⟩ := stat_eq_ok.mp hstat
  obtain ⟨-, xs, hxs, hleads'', -⟩ := resolveParent_eq_ok.mp hparent
  have hloc' := (leads_steps.mp hloc').1
  unfold subpath at hleads'
  rw [names_append hname, leads_append, start_append hpath] at hleads'
  rw [hxs, leads_append] at hloc'
  obtain ⟨cur, mid, budget, hstart, hwalk, left, hlast⟩ := hleads'
  obtain ⟨cur', mid', budget', hstart', hwalk', left', hlast'⟩ := hloc'
  have hmid : mid = dir' := Leads.unique ⟨cur, budget, hstart, hwalk⟩ hleads
  have hmid' : mid' = dir' := Leads.unique ⟨cur', budget', hstart', hwalk'⟩ hleads''
  subst hmid hmid'
  rw [walk_object_unique hlast' hlast, hdir] at hfile
  simp at hfile

theorem Stuck.mono (h : Stuck K s loc) (hleft : LeftOf s' s)
    (hloc : s'.lookup loc = s.lookup loc) : Stuck K s' loc where
  link := hloc ▸ h.link
  never := fun path dir name hparent heq content hstat =>
    h.never path dir name (resolveParent_mono hleft hparent) heq content (stat_mono hleft hstat)

/-- What is removed from is not above a stuck entry. -/
theorem Stuck.remove (h : Stuck K s loc) {l : Loc} (hl : l ≠ []) (hnot : ¬ l <:+ loc) :
    Stuck K (s.remove l) loc :=
  h.mono (leftOf_remove s hl) (by rw [s.lookup_remove hl, if_neg hnot])

theorem Stuck.rmdir (h : Stuck K s loc) (hrmdir : Posix.rmdir K s path = .ok s') :
    Stuck K s' loc := by
  obtain ⟨l, hl, -, -, hdir, hempty, rfl, -⟩ := rmdir_place hrmdir
  refine h.remove hl fun hbelow => ?_
  obtain ⟨target, hlink⟩ := h.link
  rw [eq_of_entries_eq_nil hempty hlink hbelow, hdir] at hlink
  simp at hlink

theorem Stuck.unlink (h : Stuck K s loc) {content : Bytes}
    (hstat : Posix.stat K s path = .ok (.file content))
    (hremove : Posix.remove K s path = .ok s') : Stuck K s' loc := by
  rcases remove_eq_ok hremove with hunlink | hrmdir
  · obtain ⟨-, -, dir, name, node, hparent, -, -, hnode, hne, rfl⟩ := unlink_eq_ok.mp hunlink
    refine h.remove (by simp) fun hbelow => ?_
    obtain ⟨target, hlink⟩ := h.link
    have heq := FS.eq_of_suffix hbelow hnode hne hlink
    exact h.never path dir name hparent heq.symm content hstat
  · exact h.rmdir hrmdir

/-- The recursion keeps stuck entries. -/
theorem Stuck.of_run {fuel : Nat} {w w' : World} {b : Bool} (h : Stuck K w.fs loc)
    (hrun : _compat_rmdir K fuel path true w = .ok (w', b)) : Stuck K w'.fs loc :=
  _compat_rmdir_invariant (P := fun s => Stuck K s loc)
    (fun _ _ _ _ h hstat hremove => h.unlink hstat hremove)
    (fun _ _ _ h hrmdir => h.rmdir hrmdir) h hrun

theorem Stuck.of_loop {fuel : Nat} {xs : List Name} {w w' : World} (h : Stuck K w.fs loc)
    (hrun : removeEntries K (fun path => _compat_rmdir K fuel path true) path xs w = .ok w') :
    Stuck K w'.fs loc :=
  removeEntries_invariant (P := fun s => Stuck K s loc)
    (fun _ _ _ _ h hstat hremove => h.unlink hstat hremove)
    (fun _ _ _ _ h hdeep => h.of_run hdeep) h hrun

end

/-! ## What the recursion reaches -/

section

variable {K : Kernel} {s : FS} {loc : Loc} {path : Bytes} {fuel : Nat}

/-- Something below the directory stays for good. -/
def StuckBelow (K : Kernel) (s : FS) (loc : Loc) : Prop :=
  ∃ l, loc <:+ l ∧ l ≠ loc ∧ Stuck K s l

/-- A stuck entry keeps the directory from being empty. -/
theorem not_stuckBelow (hempty : s.entries loc = []) : ¬ StuckBelow K s loc := by
  intro h
  obtain ⟨l, hbelow, hne, hstuck⟩ := h
  obtain ⟨target, hlink⟩ := hstuck.link
  exact hne (eq_of_entries_eq_nil hempty hlink hbelow)

theorem StuckBelow.of_loop {xs : List Name} {w w' : World} (h : StuckBelow K w.fs loc)
    (hrun : removeEntries K (fun path => _compat_rmdir K fuel path true) path xs w = .ok w') :
    StuckBelow K w'.fs loc := by
  obtain ⟨l, hbelow, hne, hstuck⟩ := h
  exact ⟨l, hbelow, hne, hstuck.of_loop hrun⟩

/-- The path of the opened directory leads there as long as a longer path
does. -/
theorem leads_of_opendir_entry {s₀ : FS} (hleft : LeftOf s s₀) {name : Name} (hname : IsName name)
    (hopen : opendir K s₀ path = .ok loc) {dir : Loc}
    (hopen' : opendir K s (subpath path name) = .ok dir) :
    Leads K s path (names path) loc ∧ s.lookup loc = some .dir := by
  obtain ⟨-, hfits, hleads, -⟩ := opendir_eq_ok.mp hopen
  obtain ⟨-, -, hleads', -⟩ := opendir_eq_ok.mp hopen'
  unfold subpath at hleads'
  rw [names_append hname, leads_append, start_append hfits.1] at hleads'
  obtain ⟨cur, mid, budget, hstart, hwalk, left, hlast⟩ := hleads'
  have hmid : mid = loc := (Leads.mono hleft ⟨cur, budget, hstart, hwalk⟩).unique hleads
  subst hmid
  exact ⟨⟨cur, budget, hstart, hwalk⟩, lookup_of_walk hlast⟩

/-- What opens under the name of an entry: the directory that the entry is, or
what a link leads to. -/
theorem opendir_entry_cases {s₀ : FS} (hleft : LeftOf s s₀) {name : Name} (hname : IsName name)
    (hopen : opendir K s₀ path = .ok loc) {dir : Loc}
    (hopen' : opendir K s (subpath path name) = .ok dir) :
    dir = name :: loc ∧ s.lookup (name :: loc) = some .dir ∨ Stuck K s (name :: loc) := by
  have hpath := (opendir_eq_ok.mp hopen).2.1.1
  obtain ⟨hleads, hdir⟩ := leads_of_opendir_entry hleft hname hopen hopen'
  have hdir' := (opendir_eq_ok.mp hopen').2.2
  cases hnode : s.lookup (name :: loc) with
  | none =>
    obtain ⟨⟨cur, left, hstart, hwalk⟩, -⟩ := hdir'
    obtain ⟨cur', left', hstart', hwalk'⟩ := hleads
    unfold subpath at hstart hwalk
    rw [start_append hpath, hstart', Except.ok.injEq] at hstart
    rw [names_append hname, ← hstart, walk_append, hwalk'] at hwalk
    have hstep : walk s left' loc [name] = .ok (.object dir left) := hwalk
    rw [walk_cons hdir, if_neg hname.2.2.2.1, if_neg hname.2.2.2.2, hnode] at hstep
    simp at hstep
  | some node =>
    by_cases hlink : ∃ target, node = .link target
    · obtain ⟨target, rfl⟩ := hlink
      exact Or.inr (stuck_of_opendir hname hpath hleads hnode hopen')
    · have hentry := leads_entry hname hpath hleads hnode fun target heq => hlink ⟨target, heq⟩
      have heq : dir = name :: loc := hdir'.1.unique hentry
      refine Or.inl ⟨heq, ?_⟩
      have hdirNode := hdir'.2
      rw [heq, hnode] at hdirNode
      exact hdirNode

/-- The body of the loop changes nothing but the entry's tree, unless something
gets stuck. -/
theorem removeEntries_single_local {s₀ : FS} (hopen : opendir K s₀ path = .ok loc)
    (hdeep : ∀ path loc w w' b, opendir K w.fs path = .ok loc →
      _compat_rmdir K fuel path true w = .ok (w', b) →
        (∀ l, ¬ loc <:+ l → w'.fs.lookup l = w.fs.lookup l) ∨ StuckBelow K w'.fs loc)
    {name : Name} {w w' : World} (hleft : LeftOf w.fs s₀)
    (hrun : removeEntries K (fun path => _compat_rmdir K fuel path true) path [name] w = .ok w')
    (hname : name = bytes "." ∨ name = bytes ".." ∨ IsName name) :
    (∀ l, ¬ name :: loc <:+ l → w'.fs.lookup l = w.fs.lookup l) ∨ StuckBelow K w'.fs loc := by
  by_cases hdots : name = bytes "." ∨ name = bytes ".."
  · rw [removeEntries, if_pos hdots] at hrun
    rw [← Outcome.ok.inj hrun]
    exact Or.inl fun l _ => rfl
  have hname : IsName name := by
    rcases hname with hdot | hdd | hname
    · exact absurd (Or.inl hdot) hdots
    · exact absurd (Or.inr hdd) hdots
    · exact hname
  have hpath := (opendir_eq_ok.mp hopen).2.1.1
  rw [removeEntries, if_neg hdots] at hrun
  cases his : is_file K (subpath path name) w with
  | mk w₁ isfile =>
    have hfs : w₁.fs = w.fs := by
      rw [← @fs_is_file K (subpath path name) w, his]
    rw [his] at hrun
    cases isfile with
    | true =>
      obtain ⟨rfl, content, hstat⟩ := is_file_eq_true his
      have hw' : w' = (w₁.after (Posix.remove K w₁.fs (subpath path name))).1 :=
        (Outcome.ok.inj hrun).symm
      rw [hw']
      cases hremove : Posix.remove K w₁.fs (subpath path name) with
      | error e => exact Or.inl fun l _ => rfl
      | ok s' =>
        obtain ⟨-, dir, hleads, rfl⟩ := remove_entry hname hpath hstat hremove
        have hdir : dir = loc :=
          (hleads.mono hleft).unique (opendir_eq_ok.mp hopen).2.2.1
        subst hdir
        refine Or.inl fun l hl => ?_
        show (w₁.fs.remove (name :: dir)).lookup l = _
        rw [w₁.fs.lookup_remove (by simp), if_neg hl]
    | false =>
      obtain ⟨⟨w₂, b⟩, hcall, hrest⟩ := Outcome.bind_eq_ok_iff.mp hrun
      have hw' : w₂ = w' := Outcome.ok.inj hrest
      subst hw'
      cases hopen' : opendir K w₁.fs (subpath path name) with
      | error e =>
        cases fuel with
        | zero => simp [_compat_rmdir] at hcall
        | succ fuel =>
          simp only [_compat_rmdir, Bool.true_eq_false, if_false, hopen', Outcome.ok.injEq,
            Prod.mk.injEq] at hcall
          rw [← hcall.1]
          exact Or.inl fun l _ => by rw [← hfs]
      | ok dir =>
        rcases opendir_entry_cases (hfs ▸ hleft) hname hopen hopen' with ⟨rfl, -⟩ | hstuck
        · rcases hdeep _ _ _ _ _ hopen' hcall with hsame | ⟨l, hbelow, hne, hstuck⟩
          · exact Or.inl fun l hl => by rw [hsame l hl, hfs]
          · refine Or.inr ⟨l, (List.suffix_cons name loc).trans hbelow, fun heq => ?_, hstuck⟩
            have hlength := (heq ▸ hbelow).length_le
            simp only [List.length_cons] at hlength
            omega
        · exact Or.inr ⟨_, List.suffix_cons name loc, by simp, hstuck.of_run hcall⟩

/-- The loop changes nothing but the trees of the entries that it reads, unless
something gets stuck. -/
theorem removeEntries_local {s₀ : FS} (hopen : opendir K s₀ path = .ok loc)
    (hdeep : ∀ path loc w w' b, opendir K w.fs path = .ok loc →
      _compat_rmdir K fuel path true w = .ok (w', b) →
        (∀ l, ¬ loc <:+ l → w'.fs.lookup l = w.fs.lookup l) ∨ StuckBelow K w'.fs loc)
    {xs : List Name} (hxs : ∀ name ∈ xs, name = bytes "." ∨ name = bytes ".." ∨ IsName name)
    {w w' : World} (hleft : LeftOf w.fs s₀)
    (hrun : removeEntries K (fun path => _compat_rmdir K fuel path true) path xs w = .ok w') :
    (∀ l, (∀ name ∈ xs, ¬ name :: loc <:+ l) → w'.fs.lookup l = w.fs.lookup l) ∨
      StuckBelow K w'.fs loc := by
  induction xs generalizing w with
  | nil =>
    rw [← Outcome.ok.inj hrun]
    exact Or.inl fun l _ => rfl
  | cons name rest ih =>
    rw [show name :: rest = [name] ++ rest from rfl, removeEntries_append] at hrun
    obtain ⟨w₁, hone, hrest⟩ := Outcome.bind_eq_ok_iff.mp hrun
    have hleft₁ : LeftOf w₁.fs w.fs :=
      leftOf_removeEntries _ (fun _ _ _ _ hdeep => leftOf_compat_rmdir hdeep) hone
    have hname := hxs name List.mem_cons_self
    have hrest' := ih (fun x hx => hxs x (List.mem_cons_of_mem _ hx)) (hleft₁.trans hleft) hrest
    rcases removeEntries_single_local hopen hdeep hleft hone hname with hsame | hstuck
    · rcases hrest' with hsame' | hstuck'
      · refine Or.inl fun l hl => ?_
        rw [hsame' l fun x hx => hl x (List.mem_cons_of_mem _ hx),
          hsame l (hl name List.mem_cons_self)]
      · exact Or.inr hstuck'
    · exact Or.inr (hstuck.of_loop hrest)

theorem isName_of_mem_readdir {s : FS} {name : Name} (h : name ∈ readdir K s path loc) :
    name = bytes "." ∨ name = bytes ".." ∨ IsName name :=
  (mem_readdir.mp h).imp_right (Or.imp_right FS.isName_of_mem_entries)

/-- The recursion changes nothing but what is below the directory that it
opened, unless something gets stuck. -/
theorem _compat_rmdir_local (fuel : Nat) (path : Bytes) (loc : Loc) (w w' : World) (b : Bool)
    (hopen : opendir K w.fs path = .ok loc)
    (hrun : _compat_rmdir K fuel path true w = .ok (w', b)) :
    (∀ l, ¬ loc <:+ l → w'.fs.lookup l = w.fs.lookup l) ∨ StuckBelow K w'.fs loc := by
  induction fuel generalizing path loc w w' b with
  | zero => simp [_compat_rmdir] at hrun
  | succ fuel ih =>
    obtain ⟨w₁, hloop, rfl⟩ := _compat_rmdir_eq_ok hopen hrun
    have hleft : LeftOf w₁.fs w.fs :=
      leftOf_removeEntries _ (fun _ _ _ _ hdeep => leftOf_compat_rmdir hdeep) hloop
    have hlocal := removeEntries_local hopen ih (fun _ hx => isName_of_mem_readdir hx)
      (LeftOf.refl w.fs) hloop
    rcases hlocal with hsame | ⟨l, hbelow, hne, hstuck⟩
    · left
      intro l hl
      have hsame' : w₁.fs.lookup l = w.fs.lookup l :=
        hsame l fun name _ hbelow => hl ((List.suffix_cons name loc).trans hbelow)
      cases hrmdir : Posix.rmdir K w₁.fs path with
      | error e => exact hsame'
      | ok s' =>
        obtain ⟨loc', hne, -, hleads, -, -, rfl, -⟩ := rmdir_place hrmdir
        have hloc : loc' = loc := (hleads.mono hleft).unique (opendir_eq_ok.mp hopen).2.2.1
        subst hloc
        show (w₁.fs.remove loc').lookup l = _
        rw [w₁.fs.lookup_remove hne, if_neg hl, hsame']
    · right
      refine ⟨l, hbelow, hne, ?_⟩
      cases hrmdir : Posix.rmdir K w₁.fs path with
      | error e => exact hstuck
      | ok s' => exact hstuck.rmdir hrmdir

end

/-! ## An order that reads a branch last -/

/-- The order that reads the guide's entry last. -/
def guideLast (guide : Bytes → Name) (path : Bytes) (xs : List Name) : List Name :=
  xs.filter (fun x => !decide (x = guide path)) ++ xs.filter fun x => decide (x = guide path)

theorem guideLast_perm (guide : Bytes → Name) (path : Bytes) (xs : List Name) :
    (guideLast guide path xs).Perm xs :=
  List.perm_append_comm.trans (List.filter_append_perm _ xs)

/-- Of entries that are all different, only one is the guide's. -/
theorem guideLast_eq {guide : Bytes → Name} {path : Bytes} {xs : List Name} (hnodup : xs.Nodup)
    (h : guide path ∈ xs) : ∃ ys, guideLast guide path xs = ys ++ [guide path] ∧ guide path ∉ ys := by
  obtain ⟨before, after, rfl⟩ := List.append_of_mem h
  have hnot : guide path ∉ before ++ after := (List.nodup_middle.mp hnodup).notMem
  have hsame : (before ++ after).filter (fun x => decide (x = guide path)) = [] := by
    rw [List.filter_eq_nil_iff]
    intro x hx hguide
    exact hnot (of_decide_eq_true hguide ▸ hx)
  rw [List.filter_append, List.append_eq_nil_iff] at hsame
  refine ⟨(before ++ guide path :: after).filter fun x => !decide (x = guide path), ?_, ?_⟩
  · rw [guideLast, List.append_cancel_left_eq, List.filter_append,
      List.filter_cons_of_pos (by simp), hsame.1, hsame.2]
    rfl
  · intro hmem
    simpa using (List.mem_filter.mp hmem).2

/-- The kernel that reads the guide's entries last. -/
def guidedLast (K : Kernel) (guide : Bytes → Name) : Kernel :=
  reordered K (guideLast guide) (guideLast_perm guide)

/-- The guide leads along names. -/
def Guides (guide : Bytes → Name) : Bytes → List Name → Prop
  | _, [] => True
  | path, name :: rest => guide path = name ∧ Guides guide (subpath path name) rest

theorem Guides.congr {guide guide' : Bytes → Name} {path : Bytes} {xs : List Name}
    (h : Guides guide path xs)
    (hsame : ∀ path', path.length ≤ path'.length → guide' path' = guide path') :
    Guides guide' path xs := by
  induction xs generalizing path with
  | nil => trivial
  | cons name rest ih =>
    have hlength := length_subpath path name
    exact ⟨(hsame path (le_refl _)).trans h.1, ih h.2 fun path' hle => hsame path' (by omega)⟩

theorem exists_guides (path : Bytes) (xs : List Name) : ∃ guide, Guides guide path xs := by
  induction xs generalizing path with
  | nil => exact ⟨fun _ => [], trivial⟩
  | cons name rest ih =>
    obtain ⟨guide, hguide⟩ := ih (subpath path name)
    have hlength := length_subpath path name
    refine ⟨fun path' => if path'.length ≤ path.length then name else guide path',
      if_pos (le_refl _), hguide.congr fun path' hle => ?_⟩
    rw [if_neg (by omega)]

section

variable {K : Kernel} {s : FS} {top loc : Loc} {path : Bytes} {fuel : Nat}

theorem readdir_guidedLast {guide : Bytes → Name} {dir : Loc} (h : guide path ∈ s.entries dir) :
    ∃ ys, readdir (guidedLast K guide) s path dir = ys ++ [guide path] ∧ guide path ∉ ys := by
  have hnodup : (bytes "." :: bytes ".." :: s.entries dir).Nodup :=
    (K.order_perm path _).nodup_iff.mp (readdir_nodup s path dir)
  exact guideLast_eq hnodup (List.mem_cons_of_mem _ (List.mem_cons_of_mem _ h))

/-- A recursion that succeeds empties its directory and removes it. -/
theorem _compat_rmdir_eq_true {w w' : World} (hopen : opendir K w.fs path = .ok loc)
    (hrun : _compat_rmdir K (fuel + 1) path true w = .ok (w', true)) :
    ∃ w₁, removeEntries K (fun path => _compat_rmdir K fuel path true) path
        (readdir K w.fs path loc) w = .ok w₁ ∧ LeftOf w₁.fs w.fs ∧
      (∃ t, Posix.rmdir K w₁.fs path = .ok t) ∧ w₁.fs.entries loc = [] ∧
        entryAt K w.fs path = some loc := by
  simp only [_compat_rmdir, Bool.true_eq_false, if_false, hopen] at hrun
  obtain ⟨w₁, hloop, hlast⟩ := Outcome.bind_eq_ok_iff.mp hrun
  have hleft : LeftOf w₁.fs w.fs :=
    leftOf_removeEntries _ (fun _ _ _ _ hdeep => leftOf_compat_rmdir hdeep) hloop
  cases hrmdir : Posix.rmdir K w₁.fs path with
  | error e => simp [hrmdir, World.after] at hlast
  | ok t =>
    obtain ⟨loc', -, -, hleads, -, hempty, -, hmono⟩ := rmdir_place hrmdir
    have hloc : loc' = loc := (hleads.mono hleft).unique (opendir_eq_ok.mp hopen).2.2.1
    subst hloc
    exact ⟨w₁, hloop, hleft, ⟨t, hrmdir⟩, hempty, (hmono w.fs hleft.live).1⟩

/-- A directory that was emptied and removed when the rest of the tree was gone. -/
theorem emptyRemovable_of_run {w w' : World} (htop : top <:+ loc) (hleft : LeftOf w.fs s)
    (hclear : ∀ l, top <:+ l → ¬ l <:+ loc → ¬ loc <:+ l → w.fs.lookup l = none)
    (hopen : opendir K w.fs path = .ok loc)
    (hrun : _compat_rmdir K (fuel + 1) path true w = .ok (w', true)) :
    EmptyRemovable K (s.wayTo top loc) path := by
  obtain ⟨w₁, -, hleft₁, ⟨t, hrmdir⟩, hempty, -⟩ := _compat_rmdir_eq_true hopen hrun
  have hway : LeftOf w₁.fs.live (s.wayTo top loc) := by
    apply live_leftOf_wayTo (hleft₁.trans hleft)
    intro l htop hl
    by_cases hbelow : loc <:+ l
    · cases hnode : w₁.fs.lookup l with
      | none => rfl
      | some node =>
        exact absurd (eq_of_entries_eq_nil hempty hnode hbelow ▸ List.suffix_refl l) hl
    · exact lookup_eq_none_of_leftOf hleft₁ (hclear l htop hl hbelow)
  obtain ⟨loc', -, -, hleads, -, -, -, hmono⟩ := rmdir_place hrmdir
  have hloc : loc' = loc := (hleads.mono hleft₁).unique (opendir_eq_ok.mp hopen).2.2.1
  subst hloc
  refine ⟨(opendir_eq_ok.mp hopen).1, _, (hmono _ hway).2 ?_⟩
  exact FS.entries_wayTo_self htop

/-- `remove` on what `stat` calls a regular file is `unlink`. -/
theorem unlink_of_remove {name : Name} (hname : IsName name) (hpath : path ≠ []) {content : Bytes}
    (hstat : Posix.stat K s (subpath path name) = .ok (.file content)) {t : FS}
    (h : Posix.remove K s (subpath path name) = .ok t) :
    unlink K s (subpath path name) = .ok t := by
  rcases remove_eq_ok h with hunlink | hrmdir
  · exact hunlink
  · obtain ⟨-, dir, last, hparent, -, -, hnode, -⟩ := rmdir_eq_ok.mp hrmdir
    obtain ⟨-, rfl, hleads, -⟩ := (resolveParent_entry hname hpath).mp hparent
    have hdir := stat_entry_of_dir hname hpath hleads hnode hstat
    simp at hdir

/-- A recursion that fails leaves its directory. -/
theorem lookup_of_failed {w w' : World} (hopen : opendir K w.fs path = .ok loc)
    (hrun : _compat_rmdir K (fuel + 1) path true w = .ok (w', false)) :
    w'.fs.lookup loc = some .dir ∨ StuckBelow K w'.fs loc := by
  obtain ⟨-, -, -, hdir⟩ := opendir_eq_ok.mp hopen
  simp only [_compat_rmdir, Bool.true_eq_false, if_false, hopen] at hrun
  obtain ⟨w₁, hloop, hlast⟩ := Outcome.bind_eq_ok_iff.mp hrun
  cases hrmdir : Posix.rmdir K w₁.fs path with
  | ok t => simp [hrmdir, World.after] at hlast
  | error e =>
    have hfs : w'.fs = w₁.fs := by
      rw [hrmdir] at hlast
      rw [← (Prod.mk.inj (Outcome.ok.inj hlast)).1]
    rw [hfs]
    rcases removeEntries_local hopen (_compat_rmdir_local fuel)
      (fun _ hx => isName_of_mem_readdir hx) (LeftOf.refl w.fs) hloop with hsame | hstuck
    · left
      rw [hsame loc fun name _ hbelow => ?_, hdir]
      have hlength := hbelow.length_le
      simp only [List.length_cons] at hlength
      omega
    · exact Or.inr hstuck

/-- The loop over the entries of a directory that gets empty comes to the last
one: `w₁` is before it, and `w₂` is behind it. -/
structure LastEntry (K : Kernel) (fuel : Nat) (path : Bytes) (name : Name) (loc : Loc)
    (w w₁ w₂ : World) : Prop where
  opened : opendir K w.fs path = .ok loc
  isName : IsName name
  left : LeftOf w₁.fs w.fs
  kept : ∀ l, name :: loc <:+ l → w₁.fs.lookup l = w.fs.lookup l
  run : removeEntries K (fun path => _compat_rmdir K fuel path true) path [name] w₁ = .ok w₂
  same : ∀ l, ¬ name :: loc <:+ l → w₂.fs.lookup l = w₁.fs.lookup l
  empty : w₂.fs.entries loc = []

/-- An entry that is read last is the last entry. -/
theorem exists_lastEntry {name : Name} {ys : List Name} {w w' : World}
    (hread : readdir K w.fs path loc = ys ++ [name]) (hnotin : name ∉ ys)
    (hentry : name ∈ w.fs.entries loc) (hopen : opendir K w.fs path = .ok loc)
    (hrun : _compat_rmdir K (fuel + 1) path true w = .ok (w', true)) :
    ∃ w₁ w₂, LastEntry K fuel path name loc w w₁ w₂ := by
  have hname := FS.isName_of_mem_entries hentry
  obtain ⟨w₂, hloop, -, -, hempty, -⟩ := _compat_rmdir_eq_true hopen hrun
  have hys : ∀ y ∈ ys, y = bytes "." ∨ y = bytes ".." ∨ IsName y := by
    intro y hy
    have hmem : y ∈ readdir K w.fs path loc := by
      rw [hread]
      exact List.mem_append_left _ hy
    exact isName_of_mem_readdir hmem
  rw [hread, removeEntries_append] at hloop
  obtain ⟨w₁, hothers, hsingle⟩ := Outcome.bind_eq_ok_iff.mp hloop
  have hleft : LeftOf w₁.fs w.fs :=
    leftOf_removeEntries _ (fun _ _ _ _ hdeep => leftOf_compat_rmdir hdeep) hothers
  -- nothing is stuck, since the directory is empty in the end
  have hsame : ∀ l, (∀ y ∈ ys, ¬ y :: loc <:+ l) → w₁.fs.lookup l = w.fs.lookup l := by
    rcases removeEntries_local hopen (_compat_rmdir_local fuel) hys (LeftOf.refl w.fs) hothers
      with hsame | hstuck
    · exact hsame
    · exact absurd (hstuck.of_loop hsingle) (not_stuckBelow hempty)
  have hsame₁ : ∀ l, ¬ name :: loc <:+ l → w₂.fs.lookup l = w₁.fs.lookup l := by
    rcases removeEntries_single_local hopen (_compat_rmdir_local fuel) hleft hsingle
      (Or.inr (Or.inr hname)) with hsame | hstuck
    · exact hsame
    · exact absurd hstuck (not_stuckBelow hempty)
  refine ⟨w₁, w₂, hopen, hname, hleft, fun l hl => ?_, hsingle, hsame₁, hempty⟩
  exact hsame l fun y hy => not_suffix_sibling (ne_of_mem_of_not_mem hy hnotin).symm hl

namespace LastEntry

variable {name : Name} {w w₁ w₂ : World}

theorem gone (h : LastEntry K fuel path name loc w w₁ w₂) :
    w₂.fs.lookup (name :: loc) = none := by
  cases hnode : w₂.fs.lookup (name :: loc) with
  | none => rfl
  | some n => exact absurd (FS.mem_entries.mpr ⟨n, hnode⟩) (by simp [h.empty])

/-- When everything beside the directory is gone, so is everything beside the
entry. -/
theorem clear (h : LastEntry K fuel path name loc w w₁ w₂)
    (hclear : ∀ l, top <:+ l → ¬ l <:+ loc → ¬ loc <:+ l → w.fs.lookup l = none) :
    ∀ l, top <:+ l → ¬ l <:+ name :: loc → ¬ name :: loc <:+ l → w₁.fs.lookup l = none := by
  intro l hl hway hdeep
  have hnotloc : ¬ l <:+ loc := fun hsuffix => hway (hsuffix.trans (List.suffix_cons _ _))
  by_cases hunder : loc <:+ l
  · rw [← h.same l hdeep]
    cases hnode : w₂.fs.lookup l with
    | none => rfl
    | some n =>
      exact absurd (eq_of_entries_eq_nil h.empty hnode hunder ▸ List.suffix_refl l) hnotloc
  · exact lookup_eq_none_of_leftOf h.left (hclear l hl hnotloc hunder)

/-- The last entry is a file that is removed, or a directory of which the
recursion succeeds. -/
theorem run_cases (h : LastEntry K fuel path name loc w w₁ w₂) {node : Node}
    (hnode : w₁.fs.lookup (name :: loc) = some node) :
    (∃ content t, Posix.stat K w₁.fs (subpath path name) = .ok (.file content) ∧
        unlink K w₁.fs (subpath path name) = .ok t) ∨
      ∃ fuel' w₃, fuel = fuel' + 1 ∧ w₃.fs = w₁.fs ∧
        opendir K w₃.fs (subpath path name) = .ok (name :: loc) ∧
        _compat_rmdir K (fuel' + 1) (subpath path name) true w₃ = .ok (w₂, true) := by
  have hpath := (opendir_eq_ok.mp h.opened).2.1.1
  have hgone := h.gone
  have hsingle := h.run
  rw [removeEntries, if_neg (by simp [h.isName.2.2.2.1, h.isName.2.2.2.2])] at hsingle
  cases his : is_file K (subpath path name) w₁ with
  | mk w₃ isfile =>
  have hfs : w₃.fs = w₁.fs := by
    rw [← @fs_is_file K (subpath path name) w₁, his]
  rw [his] at hsingle
  rw [← hfs] at hnode
  cases isfile with
  | true =>
    left
    obtain ⟨rfl, content, hstat⟩ := is_file_eq_true his
    have hw₂ : w₂ = (w₃.after (Posix.remove K w₃.fs (subpath path name))).1 :=
      (Outcome.ok.inj hsingle).symm
    cases hremove : Posix.remove K w₃.fs (subpath path name) with
    | error e =>
      rw [hw₂, hremove] at hgone
      have hgone' : w₃.fs.lookup (name :: loc) = none := hgone
      simp [hnode] at hgone'
    | ok t => exact ⟨content, t, hstat, unlink_of_remove h.isName hpath hstat hremove⟩
  | false =>
    right
    obtain ⟨⟨w₄, b⟩, hcall, hend⟩ := Outcome.bind_eq_ok_iff.mp hsingle
    obtain rfl : w₄ = w₂ := Outcome.ok.inj hend
    cases fuel with
    | zero => simp [_compat_rmdir] at hcall
    | succ fuel' =>
      cases hopen' : opendir K w₃.fs (subpath path name) with
      | error e =>
        simp only [_compat_rmdir, Bool.true_eq_false, if_false, hopen', Outcome.ok.injEq,
          Prod.mk.injEq] at hcall
        rw [← hcall.1] at hgone
        have hgone' : w₃.fs.lookup (name :: loc) = none := hgone
        simp [hnode] at hgone'
      | ok dir =>
        have hnotstuck : ∀ l, name :: loc <:+ l → ¬ Stuck K w₄.fs l := by
          intro l hdeep hstuck
          refine not_stuckBelow h.empty ⟨l, (List.suffix_cons _ loc).trans hdeep, ?_, hstuck⟩
          rintro rfl
          have hlength := hdeep.length_le
          simp only [List.length_cons] at hlength
          omega
        rcases opendir_entry_cases (hfs ▸ h.left) h.isName h.opened hopen' with ⟨rfl, -⟩ | hstuck
        · cases b with
          | true => exact ⟨fuel', w₃, rfl, hfs, hopen', hcall⟩
          | false =>
            rcases lookup_of_failed hopen' hcall with hdir | ⟨l, hdeep, -, hstuck⟩
            · simp [hgone] at hdir
            · exact absurd hstuck (hnotstuck l hdeep)
        · exact absurd (hstuck.of_run hcall) (hnotstuck _ (List.suffix_refl _))

/-- When the last entry is removed as a file, nothing is below it, and it can be
removed when it is the only object left. -/
theorem removable_of_unlink (h : LastEntry K fuel path name loc w w₁ w₂) (hleft : LeftOf w₁.fs s)
    (hclear : ∀ l, top <:+ l → ¬ l <:+ name :: loc → ¬ name :: loc <:+ l →
      w₁.fs.lookup l = none)
    {content : Bytes} {t : FS}
    (hstat : Posix.stat K w₁.fs (subpath path name) = .ok (.file content))
    (hunlink : unlink K w₁.fs (subpath path name) = .ok t) :
    (∀ l node, name :: loc <:+ l → w₁.fs.lookup l = some node → l = name :: loc) ∧
      EntryRemovable K (s.wayTo top (name :: loc)) (subpath path name) := by
  have hpath := (opendir_eq_ok.mp h.opened).2.1.1
  obtain ⟨-, -, dir, last, n, hparent, -, -, hn, hne, -⟩ := unlink_eq_ok.mp hunlink
  obtain ⟨-, rfl, hleads, -⟩ := (resolveParent_entry h.isName hpath).mp hparent
  have hdir : dir = loc := (hleads.mono h.left).unique (opendir_eq_ok.mp h.opened).2.2.1
  subst hdir
  have hbelow : ∀ l node, last :: dir <:+ l → w₁.fs.lookup l = some node → l = last :: dir :=
    fun l node hdeep hl => FS.eq_of_suffix hdeep hn hne hl
  have hway : LeftOf w₁.fs.live (s.wayTo top (last :: dir)) := by
    apply live_leftOf_wayTo hleft
    intro l hl hon
    by_cases hdeep : last :: dir <:+ l
    · cases hnode : w₁.fs.lookup l with
      | none => rfl
      | some n' => exact absurd (hbelow l n' hdeep hnode ▸ List.suffix_refl _) hon
    · exact hclear l hl hon hdeep
  obtain ⟨dir', -, -, hmono⟩ := unlink_entry h.isName hpath hunlink
  have hsteps : steps (subpath path last) ≠ [] := by
    unfold subpath
    rw [steps_append h.isName]
    simp
  exact ⟨hbelow, Or.inl ⟨⟨content, stat_mono hway (stat_live hsteps hstat)⟩, _, hmono _ hway⟩⟩

end LastEntry

/-- An object whose branch is read last, in a recursion that succeeds, is
removable: when the recursion comes to it, the other branches are gone. -/
theorem entryRemovable_of_run {guide : Bytes → Name}
    (hlast : ∀ s path dir, guide path ∈ s.entries dir →
      ∃ ys, readdir K s path dir = ys ++ [guide path] ∧ guide path ∉ ys)
    {xs : List Name} (hxs : xs ≠ []) (hguides : Guides guide path xs) (htop : top <:+ loc)
    {w w' : World} (hleft : LeftOf w.fs s)
    (hclear : ∀ l, top <:+ l → ¬ l <:+ loc → ¬ loc <:+ l → w.fs.lookup l = none)
    (hopen : opendir K w.fs path = .ok loc)
    (hrun : _compat_rmdir K fuel path true w = .ok (w', true)) {node : Node}
    (hnode : w.fs.lookup (xs.reverse ++ loc) = some node) :
    EntryRemovable K (s.wayTo top (xs.reverse ++ loc)) (pathTo path xs) := by
  induction xs generalizing path loc fuel w w' with
  | nil => exact absurd rfl hxs
  | cons name rest ih =>
    obtain ⟨rfl, hrest⟩ := hguides
    cases fuel with
    | zero => simp [_compat_rmdir] at hrun
    | succ fuel =>
      have hloc : (guide path :: rest).reverse ++ loc = rest.reverse ++ guide path :: loc := by
        simp
      rw [hloc] at hnode ⊢
      have hbelow : guide path :: loc <:+ rest.reverse ++ guide path :: loc :=
        List.suffix_append _ _
      have hentry : guide path ∈ w.fs.entries loc :=
        FS.mem_entries.mpr (FS.lookup_of_suffix hbelow hnode)
      obtain ⟨ys, hread, hnotin⟩ := hlast w.fs path loc hentry
      obtain ⟨w₁, w₂, hlastentry⟩ := exists_lastEntry hread hnotin hentry hopen hrun
      have hnode₁ : w₁.fs.lookup (rest.reverse ++ guide path :: loc) = some node := by
        rw [hlastentry.kept _ hbelow, hnode]
      obtain ⟨node', hnode'⟩ := FS.lookup_of_suffix hbelow hnode₁
      have hleft₁ : LeftOf w₁.fs s := hlastentry.left.trans hleft
      have hclear₁ := hlastentry.clear hclear
      rcases hlastentry.run_cases hnode' with
        ⟨content, t, hstat, hunlink⟩ | ⟨fuel', w₃, rfl, hfs, hopen', hcall⟩
      · obtain ⟨honly, hremovable⟩ := hlastentry.removable_of_unlink hleft₁ hclear₁ hstat hunlink
        have hlength := congrArg List.length (honly _ node hbelow hnode₁)
        simp only [List.length_append, List.length_reverse, List.length_cons] at hlength
        obtain rfl : rest = [] := List.eq_nil_of_length_eq_zero (by omega)
        exact hremovable
      · rw [← hfs] at hleft₁ hclear₁ hnode₁
        have htop' : top <:+ guide path :: loc := htop.trans (List.suffix_cons _ _)
        by_cases hend : rest = []
        · subst hend
          exact Or.inr (emptyRemovable_of_run htop' hleft₁ hclear₁ hopen' hcall)
        · exact ih hend hrest htop' hleft₁ hclear₁ hopen' hcall hnode₁

end

/-! ## Removal of a tree -/

/-- A successful `remove_dir` is a successful recursion on a directory that
opened, which is the path's own entry. -/
theorem run_of_complete {K : Kernel} {s : FS} {path : Bytes} (h : Complete K s path)
    (guide : Bytes → Name) :
    ∃ top w, opendir K s (cString path) = .ok top ∧ entryAt K s (cString path) = some top ∧
      _compat_rmdir (guidedLast K guide) (K.pathMax + 1) (cString path) true ⟨s, .ENOENT⟩ =
        .ok (w, true) := by
  obtain ⟨w, hrun, -⟩ := h (guideLast guide) (guideLast_perm guide) .ENOENT
  obtain ⟨⟨w', removed⟩, hrmdir, hreply⟩ := Outcome.bind_eq_ok_iff.mp hrun
  cases removed with
  | false =>
    have hfailed := (Prod.mk.inj (Outcome.ok.inj hreply)).2
    simp [World.failure] at hfailed
  | true =>
    cases hopen : opendir K s (cString path) with
    | error e =>
      have hopen' : opendir (reordered K (guideLast guide) (guideLast_perm guide)) s
          (cString path) = .error e := hopen
      simp [_compat_rmdir, removalFuel, hopen'] at hrmdir
    | ok top =>
      have hopen' : opendir (guidedLast K guide) (World.mk s .ENOENT).fs (cString path) = .ok top :=
        hopen
      obtain ⟨-, -, -, -, -, hself⟩ := _compat_rmdir_eq_true hopen' hrmdir
      exact ⟨top, w', rfl, hself, hrmdir⟩

theorem removable_of_complete {K : Kernel} {s : FS} {path : Bytes} (h : Complete K s path) :
    ∃ top, entryAt K s (cString path) = some top ∧ Removable K s (cString path) top := by
  obtain ⟨top, w, hopen, hself, hrun⟩ := run_of_complete h fun _ => []
  refine ⟨top, hself, ?_, fun xs node hxs hnode => ?_⟩
  · have hopen' : opendir (guidedLast K fun _ => []) (World.mk s .ENOENT).fs (cString path) =
        .ok top := hopen
    exact emptyRemovable_of_run (K := guidedLast K fun _ => []) (List.suffix_refl top)
      (LeftOf.refl s) (fun l hl _ hnot => absurd hl hnot) hopen' hrun
  · obtain ⟨guide, hguides⟩ := exists_guides (cString path) xs
    obtain ⟨-, w', -, -, hrun'⟩ := run_of_complete h guide
    have hopen' : opendir (guidedLast K guide) (World.mk s .ENOENT).fs (cString path) = .ok top :=
      hopen
    exact entryRemovable_of_run (fun s path dir hmem => readdir_guidedLast hmem) hxs hguides
      (List.suffix_refl top) (LeftOf.refl s) (fun l hl _ hnot => absurd hl hnot) hopen' hrun' hnode

/-- Recursive removal is complete, in whichever order directories are read,
exactly when each object of the tree is removable once it is the only one left
with the directories above it. -/
theorem remove_dir_complete_iff (K : Kernel) (s : FS) (path : Bytes) :
    Complete K s path ↔
      ∃ top, entryAt K s (cString path) = some top ∧ Removable K s (cString path) top := by
  constructor
  · exact removable_of_complete
  · intro h
    obtain ⟨top, htop, hremovable⟩ := h
    exact complete_of_removable htop hremovable

/-- A directory `/d` with a FIFO. -/
def fifo : FS where
  nodes := [([bytes "d"], .dir), ([bytes "p", bytes "d"], .fifo)]
  cwd := some []
  nodup := by decide
  parents := by decide
  named := by decide

theorem remove_dir_leaves_fifos : ¬ Complete permissive fifo (bytes "/d") := by
  intro h
  obtain ⟨w, hrun, -⟩ := h (fun _ xs => xs) (fun _ _ => List.Perm.refl _) .ENOENT
  have hfailed : (match fs_remove_dir permissive (bytes "/d") true ⟨fifo, .ENOENT⟩ with
      | .ok (_, .boolean _) => true
      | _ => false) = false := by
    decide +kernel
  rw [show fs_remove_dir permissive (bytes "/d") true ⟨fifo, .ENOENT⟩ = _ from hrun] at hfailed
  simp at hfailed

end Vklib.Fs
