import Vklib.Fs.Functions

/-!
# What recursive removal takes away

`_compat_rmdir` asks `stat` and `opendir` about every entry, and both follow
links.  So the recursion goes on behind a link to a directory, and what it
finds there is removed too.

`Inside` says which objects a removal of a path may take, and `Touches` follows
the recursion over the untouched file system, through all directories that
open, to the entries that it takes.  Removal takes nothing from outside in any
order of reading exactly when all that it touches lies inside.

In one direction the invariant is `Trimmed`: the file system is what is left of
the one at the start, and only objects inside are gone.  Everything that is
found in it was there at the start, with one exception: a directory may have
become empty.  In the other direction, an order that reads the entries on the
way first leads the recursion to the object before anything else is removed.
-/

namespace Vklib.Fs

open Vklib.Posix

/-- The place of a path's own entry, a link at the end not followed. -/
def entryAt (K : Kernel) (s : FS) (path : Bytes) : Option Loc :=
  if endsInSlash path then
    match resolve K s path with
    | .ok (.object loc _) => some loc
    | _ => none
  else
    match resolveParent K s path with
    | .error _ => none
    | .ok (dir, name) =>
      if name = bytes "." then some dir
      else if name = bytes ".." then some dir.tail
      else if (s.lookup (name :: dir)).isSome then some (name :: dir)
      else none

/-- The location lies in the tree of entries below the path's own entry. -/
def Inside (K : Kernel) (s : FS) (path : Bytes) (loc : Loc) : Prop :=
  ∃ top, entryAt K s path = some top ∧ top <:+ loc

theorem Inside.below {K : Kernel} {s : FS} {path : Bytes} {loc loc' : Loc}
    (h : Inside K s path loc) (hbelow : loc <:+ loc') : Inside K s path loc' := by
  obtain ⟨top, htop, hsuffix⟩ := h
  exact ⟨top, htop, hsuffix.trans hbelow⟩

/-- The entries that the recursion from a path takes: what `stat` calls a
regular file, and empty directories, in every directory that opens. -/
inductive Touches (K : Kernel) (s : FS) : Bytes → Loc → Prop
  | file {path : Bytes} {dir : Loc} {name : Name} {content : Bytes} :
      opendir K s path = .ok dir → name ∈ s.entries dir →
      stat K s (subpath path name) = .ok (.file content) →
      K.refuses .unlink (subpath path name) = none → Touches K s path (name :: dir)
  | empty {path : Bytes} {dir : Loc} {name : Name} :
      opendir K s path = .ok dir → name ∈ s.entries dir →
      opendir K s (subpath path name) = .ok (name :: dir) → s.entries (name :: dir) = [] →
      K.refuses .rmdir (subpath path name) = none → Touches K s path (name :: dir)
  | deeper {path : Bytes} {dir loc : Loc} {name : Name} :
      opendir K s path = .ok dir → name ∈ s.entries dir →
      Touches K s (subpath path name) loc → Touches K s path loc

/-- All that the recursion from a path takes lies in the tree below it. -/
def NoEscape (K : Kernel) (s : FS) (path : Bytes) : Prop :=
  ∀ loc, Touches K s path loc → Inside K s path loc

/-- The kernel reads directories in another order. -/
def reordered (K : Kernel) (order : Bytes → List Name → List Name)
    (hperm : ∀ path names, (order path names).Perm names) : Kernel :=
  { K with order := order, order_perm := hperm }

/-- All objects outside the tree below a path are still there. -/
def KeptOutside (K : Kernel) (s : FS) (path : Bytes) (w : World) : Prop :=
  ∀ loc node, s.lookup loc = some node → ¬ Inside K s path loc → w.fs.lookup loc = some node

/-- A call returns and keeps all objects outside the tree below a path, in
whichever order directories are read. -/
def KeepsOutside {α : Type} (K : Kernel) (s : FS) (path : Bytes)
    (run : Kernel → World → Outcome Empty (World × α)) : Prop :=
  ∀ order hperm errno, ∃ w r, run (reordered K order hperm) ⟨s, errno⟩ = .ok (w, r) ∧
    KeptOutside K s path w

/-! ## The tree below a path -/

/-- The second path goes on from the first. -/
def Extends (path path' : Bytes) : Prop :=
  ∃ tail ws, path' = path ++ tail ∧ names path' = names path ++ ws

theorem Extends.refl (path : Bytes) : Extends path path := ⟨[], [], by simp, by simp⟩

theorem Extends.entry {path path' : Bytes} (h : Extends path path') {name : Name}
    (hname : IsName name) : Extends path (subpath path' name) := by
  obtain ⟨tail, ws, rfl, hws⟩ := h
  exact ⟨tail ++ 47 :: name, ws ++ [name], by simp [subpath],
    by rw [subpath, names_append hname, hws, List.append_assoc]⟩

section

variable {K : Kernel} {s s' : FS} {path : Bytes}

/-- A path that leads to a directory leads through its own entry. -/
theorem entryAt_of_leads (hleft : LeftOf s' s) {top : Loc} (htop : entryAt K s path = some top)
    {dir : Loc} (hleads : Leads K s' path (names path) dir) (hdir : s'.lookup dir = some .dir) :
    ∃ node, s'.lookup top = some node := by
  unfold entryAt at htop
  by_cases hslash : endsInSlash path = true
  · rw [if_pos hslash] at htop
    cases hr : resolve K s path with
    | error e => simp [hr] at htop
    | ok r =>
      cases r with
      | missing loc => simp [hr] at htop
      | object loc left =>
        simp only [hr, Option.some.injEq] at htop
        have hloc := (leads_steps.mp (resolve_eq_object.mp ⟨left, hr⟩).2).1
        rw [← htop, hloc.unique (hleads.mono hleft)]
        exact ⟨_, hdir⟩
  · rw [if_neg hslash] at htop
    cases hp : resolveParent K s path with
    | error e => simp [hp] at htop
    | ok p =>
      obtain ⟨dir₀, name⟩ := p
      simp only [hp] at htop
      obtain ⟨-, xs, hxs, hleads₀, -⟩ := resolveParent_eq_ok.mp hp
      rw [hxs, leads_append] at hleads
      obtain ⟨cur, mid, budget, hstart, hwalk, left, hlast⟩ := hleads
      have hmid : dir₀ = mid := hleads₀.unique (Leads.mono hleft ⟨cur, budget, hstart, hwalk⟩)
      subst hmid
      have hdir₀ := lookup_of_walk hlast
      rw [walk_cons hdir₀] at hlast
      by_cases hdot : name = bytes "."
      · rw [if_pos hdot, Option.some.injEq] at htop
        exact ⟨_, htop ▸ hdir₀⟩
      by_cases hdots : name = bytes ".."
      · rw [if_neg hdot, if_pos hdots, Option.some.injEq] at htop
        exact FS.lookup_of_suffix (htop ▸ List.tail_suffix dir₀) hdir₀
      rw [if_neg hdot, if_neg hdots] at htop hlast
      have htop' : name :: dir₀ = top := by
        split at htop
        · exact Option.some.inj htop
        · simp at htop
      rw [← htop']
      cases hnode : s'.lookup (name :: dir₀) with
      | none => simp [hnode] at hlast
      | some node => exact ⟨node, rfl⟩

/-- A longer path leads through the entry of the shorter one. -/
theorem lookup_entryAt (hleft : LeftOf s' s) (hpath : path ≠ []) {top : Loc}
    (htop : entryAt K s path = some top) {path' : Bytes} (hext : Extends path path') {dir : Loc}
    (hleads : Leads K s' path' (names path') dir) (hdir : s'.lookup dir = some .dir) :
    ∃ node, s'.lookup top = some node := by
  obtain ⟨tail, ws, rfl, hws⟩ := hext
  rw [hws, leads_append, start_append hpath] at hleads
  obtain ⟨cur, mid, budget, hstart, hwalk, left, hrest⟩ := hleads
  apply entryAt_of_leads hleft htop ⟨cur, budget, hstart, hwalk⟩
  cases ws with
  | nil =>
    simp only [walk_nil, Except.ok.injEq, Reached.object.injEq] at hrest
    rw [hrest.1]
    exact hdir
  | cons name rest => exact lookup_of_walk hrest

/-- What `rmdir` takes is the path's own entry. -/
theorem entryAt_of_rmdir (hleft : LeftOf s' s) {dir : Loc} {name : Name}
    (hparent : resolveParent K s' path = .ok (dir, name)) (hdot : name ≠ bytes ".")
    (hdots : name ≠ bytes "..") (hnode : s'.lookup (name :: dir) = some .dir) :
    entryAt K s path = some (name :: dir) := by
  have hparent' := resolveParent_mono hleft hparent
  have hnode' := hleft.part.lookup hnode
  unfold entryAt
  by_cases hslash : endsInSlash path = true
  · obtain ⟨hfits, xs, hxs, ⟨cur, budget, hstart, hwalk⟩, hdir⟩ := resolveParent_eq_ok.mp hparent'
    have hleads : Leads K s path (names path) (name :: dir) := by
      rw [hxs, leads_append]
      refine ⟨cur, dir, budget, hstart, hwalk, budget, ?_⟩
      rw [walk_cons hdir, if_neg hdot, if_neg hdots, hnode']
      exact walk_nil s budget _
    obtain ⟨left, hresolve⟩ :=
      resolve_eq_object.mpr ⟨hfits, leads_steps.mpr ⟨hleads, fun _ => hnode'⟩⟩
    rw [if_pos hslash, hresolve]
  · rw [if_neg hslash, hparent']
    simp [hdot, hdots, hnode']

end

/-! ## One removal -/

/-- The file system is what is left of the one at the start, and what is gone
lay inside. -/
structure Trimmed (K : Kernel) (s : FS) (path : Bytes) (s' : FS) : Prop where
  left : LeftOf s' s
  kept : ∀ loc node, s.lookup loc = some node → ¬ Inside K s path loc →
    s'.lookup loc = some node

theorem Trimmed.refl (K : Kernel) (s : FS) (path : Bytes) : Trimmed K s path s :=
  ⟨LeftOf.refl s, fun _ _ h _ => h⟩

section

variable {K : Kernel} {s s' s'' : FS} {top path : Bytes}

theorem Trimmed.remove (h : Trimmed K s top s') {name : Name} {dir : Loc}
    (hinside : Inside K s top (name :: dir)) : Trimmed K s top (s'.remove (name :: dir)) where
  left := (leftOf_remove s' (by simp)).trans h.left
  kept := by
    intro loc node hnode hout
    rw [s'.lookup_remove (by simp), if_neg ?_]
    · exact h.kept loc node hnode hout
    · intro hbelow
      exact hout (hinside.below hbelow)

theorem isFile_eq_true {node : Node} (h : node.isFile = true) : ∃ content, node = .file content := by
  cases node with
  | file content => exact ⟨content, rfl⟩
  | _ => simp [Node.isFile] at h

theorem is_file_eq_true {w w' : World} (h : is_file K path w = (w', true)) :
    w' = w ∧ ∃ content, stat K w.fs path = .ok (.file content) := by
  unfold is_file at h
  cases hstat : stat K w.fs path with
  | error e => simp [hstat] at h
  | ok node =>
    simp only [hstat, Prod.mk.injEq] at h
    obtain ⟨content, rfl⟩ := isFile_eq_true h.2
    exact ⟨h.1.symm, content, rfl⟩

@[simp] theorem fs_is_file (w : World) : (is_file K path w).1.fs = w.fs := by
  unfold is_file
  split <;> rfl

/-- `remove` takes an entry by `unlink` or by `rmdir`. -/
theorem remove_eq_ok (h : Posix.remove K s path = .ok s') :
    unlink K s path = .ok s' ∨ rmdir K s path = .ok s' := by
  unfold Posix.remove at h
  cases hunlink : unlink K s path with
  | ok fs =>
    rw [hunlink] at h
    exact Or.inl h
  | error e =>
    rw [hunlink] at h
    cases e with
    | EISDIR => exact Or.inr h
    | _ => simp at h

/-- `remove` on what `stat` calls a regular file is `unlink` on the entry. -/
theorem remove_entry {name : Name} (hname : IsName name) (hpath : path ≠ []) {content : Bytes}
    (hstat : stat K s (subpath path name) = .ok (.file content))
    (h : Posix.remove K s (subpath path name) = .ok s') :
    K.refuses .unlink (subpath path name) = none ∧
      ∃ dir, Leads K s path (names path) dir ∧ s' = s.remove (name :: dir) := by
  rcases remove_eq_ok h with hunlink | hrmdir
  · obtain ⟨hrefuses, -, dir, last, node, hparent, -, -, -, -, heq⟩ := unlink_eq_ok.mp hunlink
    obtain ⟨-, rfl, hleads, -⟩ := (resolveParent_entry hname hpath).mp hparent
    exact ⟨hrefuses, dir, hleads, heq⟩
  · obtain ⟨-, dir, last, hparent, -, -, hnode, -⟩ := rmdir_eq_ok.mp hrmdir
    obtain ⟨-, rfl, hleads, -⟩ := (resolveParent_entry hname hpath).mp hparent
    have hdir := stat_entry_of_dir hname hpath hleads hnode hstat
    simp at hdir

/-- The removal of a file in a directory that the recursion opened. -/
theorem trimmed_of_remove (h : Trimmed K s top s') {dir : Loc} {name : Name}
    (hopen : opendir K s path = .ok dir) (hname : name ∈ s.entries dir)
    (htouches : ∀ loc, Touches K s path loc → Inside K s top loc) {content : Bytes}
    (hstat : stat K s' (subpath path name) = .ok (.file content))
    (hremove : Posix.remove K s' (subpath path name) = .ok s'') : Trimmed K s top s'' := by
  obtain ⟨-, hfits, hleads, -⟩ := opendir_eq_ok.mp hopen
  obtain ⟨hrefuses, dir', hleads', rfl⟩ :=
    remove_entry (FS.isName_of_mem_entries hname) hfits.1 hstat hremove
  rw [(hleads'.mono h.left).unique hleads]
  apply h.remove
  exact htouches _ (.file hopen hname (stat_mono h.left hstat) hrefuses)

/-- The removal of a directory that the recursion opened below the top.  If it
was not empty at the start, then what was in it lay inside, and it can only have
been the top.  But the path that leads here leads through the top. -/
theorem trimmed_of_rmdir (h : Trimmed K s top s') (htop : top ≠ []) (hext : Extends top path)
    {dir dir' : Loc} {name : Name} (hopen : opendir K s path = .ok dir)
    (hname : name ∈ s.entries dir) (hopen' : opendir K s (subpath path name) = .ok dir')
    (htouches : ∀ loc, Touches K s path loc → Inside K s top loc)
    (hrmdir : rmdir K s' (subpath path name) = .ok s'') : Trimmed K s top s'' := by
  have hisname := FS.isName_of_mem_entries hname
  obtain ⟨-, hfits, hleads, -⟩ := opendir_eq_ok.mp hopen
  obtain ⟨hrefuses, dir₁, last, hparent, -, -, hnode, hempty, rfl⟩ := rmdir_eq_ok.mp hrmdir
  obtain ⟨-, rfl, hleads₁, hdir₁⟩ := (resolveParent_entry hisname hfits.1).mp hparent
  have heq : dir₁ = dir := (hleads₁.mono h.left).unique hleads
  subst heq
  have hself := opendir_entry_of_dir hisname hfits.1 hleads (h.left.part.lookup hnode) hopen'
  subst hself
  apply h.remove
  by_contra hout
  have hsome : ∃ child, child ∈ s.entries (last :: dir₁) := by
    apply List.exists_mem_of_ne_nil
    intro hnil
    exact hout (htouches _ (.empty hopen hname hopen' hnil hrefuses))
  obtain ⟨child, hchild⟩ := hsome
  obtain ⟨node, hnode'⟩ := FS.mem_entries.mp hchild
  have hgone : ∀ node, s'.lookup (child :: last :: dir₁) ≠ some node := by
    intro node' hstill
    have := FS.mem_entries.mpr ⟨node', hstill⟩
    simp [hempty] at this
  have hinside : Inside K s top (child :: last :: dir₁) := by
    by_contra hnot
    exact hgone node (h.kept _ _ hnode' hnot)
  obtain ⟨loc, hloc, hsuffix⟩ := hinside
  rcases List.suffix_cons_iff.mp hsuffix with hself | habove
  · obtain ⟨node', hstill⟩ := lookup_entryAt h.left htop hloc hext hleads₁ hdir₁
    exact hgone node' (hself ▸ hstill)
  · exact hout ⟨loc, hloc, habove⟩

/-- The removal of the top itself. -/
theorem trimmed_of_rmdir_top (h : Trimmed K s top s') (hrmdir : rmdir K s' top = .ok s'') :
    Trimmed K s top s'' := by
  obtain ⟨-, dir, name, hparent, hdot, hdots, hnode, -, rfl⟩ := rmdir_eq_ok.mp hrmdir
  apply h.remove
  exact ⟨_, entryAt_of_rmdir h.left hparent hdot hdots hnode, List.suffix_refl _⟩

/-! ## The recursion -/

theorem World.after_trimmed {w : World} {r : Except Errno FS} (h : Trimmed K s top w.fs)
    (hr : ∀ fs, r = .ok fs → Trimmed K s top fs) : Trimmed K s top (w.after r).1.fs := by
  cases r with
  | error e => exact h
  | ok fs => exact hr fs rfl

/-- The loop over the entries of an opened directory. -/
theorem removeEntries_trimmed (descend : Bytes → World → Outcome Empty (World × Bool)) {dir : Loc}
    (hopen : opendir K s path = .ok dir)
    (htouches : ∀ loc, Touches K s path loc → Inside K s top loc)
    (hdescend : ∀ name ∈ s.entries dir, ∀ w, Trimmed K s top w.fs →
      ∃ w' b, descend (subpath path name) w = .ok (w', b) ∧ Trimmed K s top w'.fs)
    {xs : List Name}
    (hxs : ∀ name ∈ xs, name = bytes "." ∨ name = bytes ".." ∨ name ∈ s.entries dir) {w : World}
    (h : Trimmed K s top w.fs) :
    ∃ w', removeEntries K descend path xs w = .ok w' ∧ Trimmed K s top w'.fs := by
  induction xs generalizing w with
  | nil => exact ⟨w, rfl, h⟩
  | cons name rest ih =>
    have ih := fun w => @ih (fun x hx => hxs x (List.mem_cons_of_mem _ hx)) w
    unfold removeEntries
    by_cases hdots : name = bytes "." ∨ name = bytes ".."
    · rw [if_pos hdots]
      exact ih w h
    rw [if_neg hdots]
    have hname : name ∈ s.entries dir := by
      rcases hxs name (List.mem_cons_self ..) with hdot | hdd | hmem
      · exact absurd (Or.inl hdot) hdots
      · exact absurd (Or.inr hdd) hdots
      · exact hmem
    cases his : is_file K (subpath path name) w with
    | mk w₁ isfile =>
      cases isfile with
      | true =>
        obtain ⟨rfl, content, hstat⟩ := is_file_eq_true his
        apply ih
        apply World.after_trimmed h
        intro fs hfs
        exact trimmed_of_remove h hopen hname htouches hstat hfs
      | false =>
        have hfs : w₁.fs = w.fs := by
          rw [← @fs_is_file K (subpath path name) w, his]
        obtain ⟨w₂, b, hrun, h₂⟩ := hdescend name hname w₁ (hfs ▸ h)
        obtain ⟨w₃, hrest, h₃⟩ := ih w₂ h₂
        exact ⟨w₃, by simp [hrun, hrest], h₃⟩

/-- The whole recursion ends, and keeps what lies outside. -/
theorem _compat_rmdir_trimmed (htop : top ≠ []) {fuel : Nat} (hfuel : 0 < fuel)
    (hlong : K.pathMax < fuel + path.length) (hext : Extends top path)
    (htouches : ∀ loc, Touches K s path loc → Inside K s top loc)
    (hself : ∀ dir s' s'', opendir K s path = .ok dir → Trimmed K s top s' →
      rmdir K s' path = .ok s'' → Trimmed K s top s'') {w : World} (h : Trimmed K s top w.fs) :
    ∃ w' b, _compat_rmdir K fuel path true w = .ok (w', b) ∧ Trimmed K s top w'.fs := by
  induction fuel generalizing path w with
  | zero => exact absurd hfuel (by omega)
  | succ fuel ih =>
    simp only [_compat_rmdir, Bool.true_eq_false, if_false]
    cases hopen' : opendir K w.fs path with
    | error e => exact ⟨_, false, rfl, h⟩
    | ok dir =>
      have hopen := opendir_mono h.left hopen'
      have hfits := (opendir_eq_ok.mp hopen).2.1
      have hentries : ∀ name ∈ readdir K w.fs path dir,
          name = bytes "." ∨ name = bytes ".." ∨ name ∈ s.entries dir := by
        intro name hname
        have hmem := (K.order_perm _ _).mem_iff.mp hname
        simp only [List.mem_cons] at hmem
        exact hmem.imp_right (Or.imp_right (entries_mono h.left))
      have hdescend : ∀ name ∈ s.entries dir, ∀ w, Trimmed K s top w.fs →
          ∃ w' b, _compat_rmdir K fuel (subpath path name) true w = .ok (w', b) ∧
            Trimmed K s top w'.fs := by
        intro name hname w h
        have hisname := FS.isName_of_mem_entries hname
        have hlength : (subpath path name).length = path.length + 1 + name.length := by
          simp [subpath]; omega
        have hshort : path.length < K.pathMax := hfits.2
        apply ih (by omega) (by omega) (hext.entry hisname) _ _ h
        · intro loc hloc
          exact htouches loc (.deeper hopen hname hloc)
        · intro dir' s' s'' hopen'' h' hrmdir
          exact trimmed_of_rmdir h' htop hext hopen hname hopen'' htouches hrmdir
      obtain ⟨w₁, hrun, h₁⟩ :=
        removeEntries_trimmed (fun path => _compat_rmdir K fuel path true) hopen htouches hdescend
          hentries h
      refine ⟨_, _, by simp only [hrun, Outcome.ok_bind]; rfl, ?_⟩
      apply World.after_trimmed h₁
      intro fs hfs
      exact hself dir w₁.fs fs hopen h₁ hfs

end

/-! ## What lies outside is kept -/

section

variable {K : Kernel} {s : FS}

theorem touches_reordered {order : Bytes → List Name → List Name}
    {hperm : ∀ path names, (order path names).Perm names} {path : Bytes} {loc : Loc}
    (h : Touches (reordered K order hperm) s path loc) : Touches K s path loc := by
  induction h with
  | file hopen hname hstat hrefuses => exact .file hopen hname hstat hrefuses
  | empty hopen hname hopen' hempty hrefuses => exact .empty hopen hname hopen' hempty hrefuses
  | deeper hopen hname _ ih => exact .deeper hopen hname ih

/-- A path that cannot be opened is not walked. -/
theorem _compat_rmdir_nil {fuel : Nat} (w : World) :
    ∃ e, _compat_rmdir K (fuel + 1) [] true w = .ok ({ w with errno := e }, false) := by
  have hopen : ∃ e, opendir K w.fs [] = .error e := by
    unfold opendir attempt
    cases hrefuses : K.refuses .opendir [] with
    | some e => exact ⟨e, rfl⟩
    | none => exact ⟨.ENOENT, rfl⟩
  obtain ⟨e, he⟩ := hopen
  exact ⟨e, by simp [_compat_rmdir, he]⟩

/-- Recursive removal of a path whose recursion stays inside. -/
theorem _compat_rmdir_keeps {path : Bytes} (hescape : NoEscape K s path)
    {order : Bytes → List Name → List Name}
    (hperm : ∀ path names, (order path names).Perm names) (errno : Errno) :
    ∃ w b, _compat_rmdir (reordered K order hperm) (removalFuel K) path true ⟨s, errno⟩ = .ok (w, b) ∧
      Trimmed (reordered K order hperm) s path w.fs := by
  by_cases hpath : path = []
  · subst hpath
    obtain ⟨e, he⟩ := @_compat_rmdir_nil (reordered K order hperm) K.pathMax ⟨s, errno⟩
    exact ⟨_, _, he, Trimmed.refl _ s _⟩
  · apply _compat_rmdir_trimmed hpath (Nat.succ_pos _) _ (Extends.refl path)
    · intro loc hloc
      exact hescape loc (touches_reordered hloc)
    · intro dir s' s'' _ h hrmdir
      exact trimmed_of_rmdir_top h hrmdir
    · exact Trimmed.refl _ s path
    · show K.pathMax < K.pathMax + 1 + path.length
      omega

theorem fs_remove_dir_keeps {path : Bytes} (hescape : NoEscape K s (cString path)) :
    KeepsOutside K s (cString path) fun K => fs_remove_dir K path true := by
  intro order hperm errno
  obtain ⟨w, b, hrun, h⟩ := _compat_rmdir_keeps hescape hperm errno
  refine ⟨w, if b then .boolean true else w.failure "rmdir", ?_, h.kept⟩
  show fs_remove_dir (reordered K order hperm) path true ⟨s, errno⟩ = _
  unfold fs_remove_dir
  rw [show removalFuel (reordered K order hperm) = removalFuel K from rfl, hrun]
  rfl

/-- `_compat_mkdir` returns where `stat` fails, and calls `mkdir`. -/
theorem _compat_mkdir_eq_ok {path : Bytes} {w w' : World} {b : Bool} :
    _compat_mkdir K path w = .ok (w', b) ↔
      b = true ∧ ∃ e, Posix.stat K w.fs path = .error e ∧
        w' = ({ w with errno := e }.after (Posix.mkdir K w.fs path)).1 := by
  unfold _compat_mkdir
  cases Posix.stat K w.fs path with
  | ok node => simp
  | error e => simp [eq_comm, and_comm]

/-- Making a directory takes nothing away. -/
theorem _compat_mkdir_kept {path : Bytes} {w w' : World} {b : Bool}
    (h : _compat_mkdir K path w = .ok (w', b)) {loc : Loc} {node : Node}
    (hnode : w.fs.lookup loc = some node) : w'.fs.lookup loc = some node := by
  obtain ⟨-, e, -, rfl⟩ := _compat_mkdir_eq_ok.mp h
  cases hmk : Posix.mkdir K w.fs path with
  | error e' => exact hnode
  | ok fs =>
    obtain ⟨dir, name, rfl⟩ := mkdir_eq_ok hmk
    exact FS.lookup_add_of_some hnode dir name .dir

/-- `makeDir` returns when `_compat_mkdir` does, and then reports success. -/
theorem makeDir_eq_ok {path : Bytes} {w w' : World} {reply : Reply} :
    makeDir K path w = .ok (w', reply) ↔
      _compat_mkdir K path w = .ok (w', true) ∧ reply = .boolean true := by
  unfold makeDir
  rw [Outcome.bind_eq_ok_iff]
  constructor
  · rintro ⟨⟨w₁, b⟩, hmake, hreply⟩
    obtain ⟨rfl, -⟩ := _compat_mkdir_eq_ok.mp hmake
    obtain ⟨rfl, rfl⟩ := Outcome.ok_prod_inj hreply
    exact ⟨hmake, rfl⟩
  · rintro ⟨hmake, rfl⟩
    exact ⟨_, hmake, rfl⟩

/-- The removal step fails when the removal does, for another reason than that
there is nothing. -/
theorem clearDir_of_compat_rmdir {path : Bytes} {w w' : World} {removed : Bool}
    (h : _compat_rmdir K (removalFuel K) path true w = .ok (w', removed)) :
    clearDir K path w = .ok (w',
      if removed = false ∧ w'.errno ≠ .ENOENT then some (w'.failure "rmdir") else none) := by
  unfold clearDir
  rw [h]
  rfl

theorem clearDir_keeps {path : Bytes} (hescape : NoEscape K s path) :
    KeepsOutside K s path fun K => clearDir K path := by
  intro order hperm errno
  obtain ⟨w, b, hrun, h⟩ := _compat_rmdir_keeps hescape hperm errno
  exact ⟨w, _, clearDir_of_compat_rmdir hrun, h.kept⟩

/-- What `create_dir` leaves is what its removal step left, with a directory
more at most. -/
theorem fs_create_dir_keptOutside {K' : Kernel} {path : Bytes} {w w' : World} {reply : Reply}
    (hkeeps : ∀ w₁ failed, clearDir K' (cString path) w = .ok (w₁, failed) →
      KeptOutside K s (cString path) w₁)
    (h : fs_create_dir K' path true w = .ok (w', reply)) : KeptOutside K s (cString path) w' := by
  simp only [fs_create_dir, if_true] at h
  obtain ⟨⟨w₁, failed⟩, hclear, hrest⟩ := Outcome.bind_eq_ok_iff.mp h
  have hkept := hkeeps w₁ failed hclear
  cases failed with
  | some reply' =>
    obtain ⟨rfl, -⟩ := Outcome.ok_prod_inj hrest
    exact hkept
  | none =>
    intro loc node hnode hout
    exact _compat_mkdir_kept (makeDir_eq_ok.mp hrest).1 (hkept loc node hnode hout)

end

/-! ## An order that leads outside -/

/-- `Touches` along a guide: the entry that is read first in the directory at a
path. -/
inductive Guided (K : Kernel) (s : FS) (guide : Bytes → Name) : Bytes → Loc → Prop
  | file {path : Bytes} {dir : Loc} {content : Bytes} :
      opendir K s path = .ok dir → guide path ∈ s.entries dir →
      stat K s (subpath path (guide path)) = .ok (.file content) →
      K.refuses .unlink (subpath path (guide path)) = none →
      Guided K s guide path (guide path :: dir)
  | empty {path : Bytes} {dir : Loc} :
      opendir K s path = .ok dir → guide path ∈ s.entries dir →
      opendir K s (subpath path (guide path)) = .ok (guide path :: dir) →
      s.entries (guide path :: dir) = [] →
      K.refuses .rmdir (subpath path (guide path)) = none →
      Guided K s guide path (guide path :: dir)
  | deeper {path : Bytes} {dir loc : Loc} :
      opendir K s path = .ok dir → guide path ∈ s.entries dir →
      Guided K s guide (subpath path (guide path)) loc → Guided K s guide path loc

section

variable {K : Kernel} {s : FS}

theorem length_subpath (path : Bytes) (name : Name) :
    (subpath path name).length = path.length + 1 + name.length := by
  simp only [subpath, List.length_append, List.length_cons]
  omega

/-- Only the guide from a path on matters. -/
theorem Guided.congr {guide guide' : Bytes → Name} {path : Bytes} {loc : Loc}
    (h : Guided K s guide path loc)
    (hsame : ∀ path', path.length ≤ path'.length → guide' path' = guide path') :
    Guided K s guide' path loc := by
  induction h with
  | file hopen hname hstat hrefuses =>
    rw [← hsame _ (le_refl _)] at hname hstat hrefuses ⊢
    exact .file hopen hname hstat hrefuses
  | empty hopen hname hopen' hempty hrefuses =>
    rw [← hsame _ (le_refl _)] at hname hopen' hempty hrefuses ⊢
    exact .empty hopen hname hopen' hempty hrefuses
  | @deeper path dir loc hopen hname _ ih =>
    have hlength := length_subpath path (guide path)
    have hdeep := ih fun path' hle => hsame path' (by omega)
    rw [← hsame _ (le_refl _)] at hname hdeep
    exact .deeper hopen hname hdeep

theorem exists_guided {path : Bytes} {loc : Loc} (h : Touches K s path loc) :
    ∃ guide, Guided K s guide path loc := by
  induction h with
  | @file path dir name content hopen hname hstat hrefuses =>
    have hguided : Guided K s (fun _ => name) path (name :: dir) :=
      Guided.file hopen hname hstat hrefuses
    exact ⟨fun _ => name, hguided⟩
  | @empty path dir name hopen hname hopen' hempty hrefuses =>
    have hguided : Guided K s (fun _ => name) path (name :: dir) :=
      Guided.empty hopen hname hopen' hempty hrefuses
    exact ⟨fun _ => name, hguided⟩
  | @deeper path dir loc name hopen hname _ ih =>
    obtain ⟨guide, hguide⟩ := ih
    refine ⟨fun path' => if path'.length ≤ path.length then name else guide path', ?_⟩
    apply Guided.deeper hopen
    · simpa using hname
    · rw [if_pos (le_refl _)]
      apply hguide.congr
      intro path' hle
      have hlength := length_subpath path name
      rw [if_neg (by omega)]

end

/-- The order that reads the guide's entry first. -/
def guideFirst (guide : Bytes → Name) (path : Bytes) (xs : List Name) : List Name :=
  if guide path ∈ xs then guide path :: xs.erase (guide path) else xs

theorem guideFirst_perm (guide : Bytes → Name) (path : Bytes) (xs : List Name) :
    (guideFirst guide path xs).Perm xs := by
  unfold guideFirst
  split
  next h => exact (List.perm_cons_erase h).symm
  next => exact List.Perm.refl xs

/-! ## What is gone stays gone -/

section

variable {K : Kernel} {s s' : FS} {path : Bytes}

theorem lookup_eq_none_of_leftOf (h : LeftOf s' s) {loc : Loc} (hnone : s.lookup loc = none) :
    s'.lookup loc = none := by
  rcases h.part loc with hnone' | heq
  · exact hnone'
  · rw [heq, hnone]

theorem leftOf_rmdir (h : rmdir K s path = .ok s') : LeftOf s' s := by
  obtain ⟨-, dir, name, -, -, -, -, -, rfl⟩ := rmdir_eq_ok.mp h
  exact leftOf_remove s (by simp)

theorem leftOf_unlink (h : unlink K s path = .ok s') : LeftOf s' s := by
  obtain ⟨-, -, dir, name, node, -, -, -, -, -, rfl⟩ := unlink_eq_ok.mp h
  exact leftOf_remove s (by simp)

theorem World.leftOf_after {w : World} {r : Except Errno FS}
    (hr : ∀ fs, r = .ok fs → LeftOf fs w.fs) : LeftOf (w.after r).1.fs w.fs := by
  cases r with
  | error e => exact LeftOf.refl w.fs
  | ok fs => exact hr fs rfl

theorem leftOf_removeEntries (descend : Bytes → World → Outcome Empty (World × Bool))
    (hdescend : ∀ path w w' b, descend path w = .ok (w', b) → LeftOf w'.fs w.fs) {xs : List Name}
    {w w' : World} (h : removeEntries K descend path xs w = .ok w') : LeftOf w'.fs w.fs := by
  induction xs generalizing w with
  | nil =>
    rw [show w' = w from (Outcome.ok.inj h).symm]
    exact LeftOf.refl w.fs
  | cons name rest ih =>
    unfold removeEntries at h
    by_cases hdots : name = bytes "." ∨ name = bytes ".."
    · rw [if_pos hdots] at h
      exact ih h
    rw [if_neg hdots] at h
    cases his : is_file K (subpath path name) w with
    | mk w₁ isfile =>
      have hfs : w₁.fs = w.fs := by
        rw [← @fs_is_file K (subpath path name) w, his]
      rw [his] at h
      cases isfile with
      | true =>
        refine (ih h).trans ?_
        rw [← hfs]
        apply World.leftOf_after
        intro fs hremove
        rcases remove_eq_ok hremove with hunlink | hrmdir
        · exact leftOf_unlink hunlink
        · exact leftOf_rmdir hrmdir
      | false =>
        obtain ⟨⟨w₂, b⟩, hrun, hrest⟩ := Outcome.bind_eq_ok_iff.mp h
        rw [← hfs]
        exact (ih hrest).trans (hdescend _ _ _ _ hrun)

/-- A removal of a directory that opens is the loop over its entries, and at
most one more removal. -/
theorem _compat_rmdir_eq_ok {fuel : Nat} {w w' : World} {b : Bool} {dir : Loc}
    (hopen : opendir K w.fs path = .ok dir)
    (h : _compat_rmdir K (fuel + 1) path true w = .ok (w', b)) :
    ∃ w₁, removeEntries K (fun path => _compat_rmdir K fuel path true) path
      (readdir K w.fs path dir) w = .ok w₁ ∧ w' = (w₁.after (rmdir K w₁.fs path)).1 := by
  simp only [_compat_rmdir, Bool.true_eq_false, if_false, hopen] at h
  obtain ⟨w₁, hrun, hlast⟩ := Outcome.bind_eq_ok_iff.mp h
  exact ⟨w₁, hrun, by rw [Outcome.ok.inj hlast]⟩

theorem leftOf_compat_rmdir {fuel : Nat} {w w' : World} {b : Bool}
    (h : _compat_rmdir K fuel path true w = .ok (w', b)) : LeftOf w'.fs w.fs := by
  induction fuel generalizing path w w' b with
  | zero => simp [_compat_rmdir] at h
  | succ fuel ih =>
    cases hopen : opendir K w.fs path with
    | error e =>
      simp only [_compat_rmdir, Bool.true_eq_false, if_false, hopen, Outcome.ok.injEq,
        Prod.mk.injEq] at h
      rw [← h.1]
      exact LeftOf.refl w.fs
    | ok dir =>
      obtain ⟨w₁, hrun, rfl⟩ := _compat_rmdir_eq_ok hopen h
      refine (World.leftOf_after fun fs hfs => leftOf_rmdir hfs).trans ?_
      exact leftOf_removeEntries _ (fun path w w' b hdeep => ih hdeep) hrun

/-- What opens is not a regular file. -/
theorem is_file_of_opendir {w : World} {dir : Loc} (hopen : opendir K w.fs path = .ok dir) :
    ∃ w₁, is_file K path w = (w₁, false) ∧ w₁.fs = w.fs := by
  unfold is_file
  cases hstat : stat K w.fs path with
  | error e => exact ⟨_, rfl, rfl⟩
  | ok node =>
    obtain ⟨-, -, hleads, hdir⟩ := opendir_eq_ok.mp hopen
    obtain ⟨-, -, loc, hloc, hnode⟩ := stat_eq_ok.mp hstat
    have heq := hleads.unique (leads_steps.mp hloc).1
    rw [← heq, hdir] at hnode
    exact ⟨w, by simp [← Option.some.inj hnode, Node.isFile], rfl⟩

/-- The entries that every directory has are passed over. -/
theorem removeEntries_dots (descend : Bytes → World → Outcome Empty (World × Bool))
    {xs : List Name} (hxs : ∀ name ∈ xs, name = bytes "." ∨ name = bytes "..") (w : World) :
    removeEntries K descend path xs w = .ok w := by
  induction xs with
  | nil => rfl
  | cons name rest ih =>
    rw [removeEntries, if_pos (hxs name (List.mem_cons_self ..))]
    exact ih fun x hx => hxs x (List.mem_cons_of_mem _ hx)

theorem lookup_of_touches {loc : Loc} (h : Touches K s path loc) :
    ∃ node, s.lookup loc = some node := by
  induction h with
  | file _ hname => exact FS.mem_entries.mp hname
  | empty _ hname => exact FS.mem_entries.mp hname
  | deeper _ _ _ ih => exact ih

end

/-! ## The recursion along a guide -/

section

variable {K : Kernel} {s : FS} {guide : Bytes → Name}

/-- The kernel that reads the guide's entries first. -/
def guided (K : Kernel) (guide : Bytes → Name) : Kernel :=
  reordered K (guideFirst guide) (guideFirst_perm guide)

theorem readdir_guided {path : Bytes} {dir : Loc} (h : guide path ∈ s.entries dir) :
    ∃ rest, readdir (guided K guide) s path dir = guide path :: rest := by
  refine ⟨_, if_pos ?_⟩
  exact List.mem_cons_of_mem _ (List.mem_cons_of_mem _ h)

/-- What `remove` and `rmdir` do to the objects that the recursion touches. -/
theorem remove_of_file {path : Bytes} {dir : Loc} {name : Name} {content : Bytes}
    (hopen : opendir K s path = .ok dir) (hname : name ∈ s.entries dir)
    (hstat : stat K s (subpath path name) = .ok (.file content))
    (hrefuses : K.refuses .unlink (subpath path name) = none) :
    Posix.remove K s (subpath path name) = .ok (s.remove (name :: dir)) := by
  have hisname := FS.isName_of_mem_entries hname
  obtain ⟨-, hfits, hleads, hdir⟩ := opendir_eq_ok.mp hopen
  obtain ⟨-, hfits', -⟩ := stat_eq_ok.mp hstat
  obtain ⟨node, hnode⟩ := FS.mem_entries.mp hname
  have hne : node ≠ .dir := by
    rintro rfl
    have := stat_entry_of_dir hisname hfits.1 hleads hnode hstat
    simp at this
  have hparent := (resolveParent_entry hisname hfits.1).mpr ⟨hfits', rfl, hleads, hdir⟩
  unfold Posix.remove
  rw [unlink_eq_ok.mpr ⟨hrefuses, endsInSlash_append hisname path, dir, name, node, hparent,
    hisname.2.2.2.1, hisname.2.2.2.2, hnode, hne, rfl⟩]

theorem rmdir_of_empty {path : Bytes} {dir : Loc} {name : Name}
    (hopen : opendir K s path = .ok dir) (hname : name ∈ s.entries dir)
    (hopen' : opendir K s (subpath path name) = .ok (name :: dir))
    (hempty : s.entries (name :: dir) = [])
    (hrefuses : K.refuses .rmdir (subpath path name) = none) :
    rmdir K s (subpath path name) = .ok (s.remove (name :: dir)) := by
  have hisname := FS.isName_of_mem_entries hname
  obtain ⟨-, hfits, hleads, hdir⟩ := opendir_eq_ok.mp hopen
  obtain ⟨-, hfits', -, hnode⟩ := opendir_eq_ok.mp hopen'
  have hparent := (resolveParent_entry hisname hfits.1).mpr ⟨hfits', rfl, hleads, hdir⟩
  exact rmdir_eq_ok.mpr ⟨hrefuses, dir, name, hparent, hisname.2.2.2.1, hisname.2.2.2.2, hnode,
    hempty, rfl⟩

/-- The call of the loop on the guide's entry, when it is not a file. -/
theorem removeEntries_of_opendir {path : Bytes} {dir : Loc} {w w₁ : World} {fuel : Nat}
    (hname : guide path ∈ w.fs.entries dir) {dir' : Loc}
    (hopen' : opendir K w.fs (subpath path (guide path)) = .ok dir')
    (h : removeEntries (guided K guide)
      (fun path => _compat_rmdir (guided K guide) fuel path true) path
      (readdir (guided K guide) w.fs path dir) w = .ok w₁) :
    ∃ w₂ w₃ b, w₂.fs = w.fs ∧
      _compat_rmdir (guided K guide) fuel (subpath path (guide path)) true w₂ = .ok (w₃, b) ∧
      LeftOf w₁.fs w₃.fs := by
  obtain ⟨rest, hrest⟩ := readdir_guided (K := K) hname
  have hisname := FS.isName_of_mem_entries hname
  obtain ⟨w₂, his, hfs⟩ := is_file_of_opendir (K := guided K guide) hopen'
  rw [hrest, removeEntries, if_neg (by simp [hisname.2.2.2.1, hisname.2.2.2.2]), his] at h
  obtain ⟨⟨w₃, b⟩, hrun, hlast⟩ := Outcome.bind_eq_ok_iff.mp h
  refine ⟨w₂, w₃, b, hfs, hrun, ?_⟩
  exact leftOf_removeEntries _ (fun _ _ _ _ hdeep => leftOf_compat_rmdir hdeep) hlast

theorem gone_of_leftOf_remove {s' : FS} {name : Name} {dir : Loc}
    (h : LeftOf s' (s.remove (name :: dir))) : s'.lookup (name :: dir) = none := by
  apply lookup_eq_none_of_leftOf h
  rw [s.lookup_remove (by simp), if_pos (List.suffix_refl _)]

/-- What a guide leads to opens on the way. -/
theorem opendir_of_guided {path : Bytes} {loc : Loc} (h : Guided K s guide path loc) :
    ∃ dir, opendir K s path = .ok dir := by
  cases h with
  | file hopen => exact ⟨_, hopen⟩
  | empty hopen => exact ⟨_, hopen⟩
  | deeper hopen => exact ⟨_, hopen⟩

/-- A guide leads the recursion to the object. -/
theorem lookup_of_guided {path : Bytes} {loc : Loc} (h : Guided K s guide path loc) {fuel : Nat}
    {w w' : World} {b : Bool} (hfs : w.fs = s)
    (hrun : _compat_rmdir (guided K guide) fuel path true w = .ok (w', b)) :
    w'.fs.lookup loc = none := by
  have hafter (path : Bytes) (w₁ : World) :
      LeftOf (w₁.after (rmdir (guided K guide) w₁.fs path)).1.fs w₁.fs :=
    World.leftOf_after fun fs hfs => leftOf_rmdir hfs
  induction h generalizing fuel w w' b with
  | @file path dir content hopen hname hstat hrefuses =>
    subst hfs
    cases fuel with
    | zero => simp [_compat_rmdir] at hrun
    | succ fuel =>
      obtain ⟨w₁, hloop, rfl⟩ := _compat_rmdir_eq_ok (K := guided K guide) hopen hrun
      obtain ⟨rest, hrest⟩ := readdir_guided (K := K) hname
      have hisname := FS.isName_of_mem_entries hname
      have his : is_file (guided K guide) (subpath path (guide path)) w = (w, true) := by
        unfold is_file
        rw [show Posix.stat (guided K guide) w.fs (subpath path (guide path)) = _ from hstat]
        rfl
      have hremove : Posix.remove (guided K guide) w.fs (subpath path (guide path)) = _ :=
        remove_of_file hopen hname hstat hrefuses
      rw [hrest, removeEntries, if_neg (by simp [hisname.2.2.2.1, hisname.2.2.2.2]), his] at hloop
      simp only [hremove] at hloop
      apply gone_of_leftOf_remove (s := w.fs)
      refine (hafter path w₁).trans ?_
      exact leftOf_removeEntries _ (fun _ _ _ _ hdeep => leftOf_compat_rmdir hdeep) hloop
  | @empty path dir hopen hname hopen' hempty hrefuses =>
    subst hfs
    cases fuel with
    | zero => simp [_compat_rmdir] at hrun
    | succ fuel =>
      obtain ⟨w₁, hloop, rfl⟩ := _compat_rmdir_eq_ok (K := guided K guide) hopen hrun
      obtain ⟨w₂, w₃, b', hfs, hdeep, hleft⟩ := removeEntries_of_opendir hname hopen' hloop
      apply gone_of_leftOf_remove (s := w.fs)
      refine ((hafter path w₁).trans hleft).trans ?_
      cases fuel with
      | zero => simp [_compat_rmdir] at hdeep
      | succ fuel =>
        rw [← hfs] at hopen' hempty
        obtain ⟨w₄, hinner, rfl⟩ := _compat_rmdir_eq_ok (K := guided K guide) hopen' hdeep
        have hdots : ∀ name ∈ readdir (guided K guide) w₂.fs (subpath path (guide path))
            (guide path :: dir), name = bytes "." ∨ name = bytes ".." := by
          intro name hmem
          have hmem' := ((guided K guide).order_perm _ _).mem_iff.mp hmem
          simpa [hempty] using hmem'
        rw [removeEntries_dots _ hdots, Outcome.ok.injEq] at hinner
        have hrmdir : Posix.rmdir (guided K guide) w₂.fs (subpath path (guide path)) = _ :=
          rmdir_of_empty (hfs ▸ hopen) (hfs ▸ hname) hopen' hempty hrefuses
        rw [← hinner, hrmdir, hfs]
        exact LeftOf.refl _
  | @deeper path dir loc hopen hname hguided ih =>
    subst hfs
    cases fuel with
    | zero => simp [_compat_rmdir] at hrun
    | succ fuel =>
      obtain ⟨dir', hopen'⟩ := opendir_of_guided hguided
      obtain ⟨w₁, hloop, rfl⟩ := _compat_rmdir_eq_ok (K := guided K guide) hopen hrun
      obtain ⟨w₂, w₃, b', hfs, hdeep, hleft⟩ := removeEntries_of_opendir hname hopen' hloop
      apply lookup_eq_none_of_leftOf ((hafter path w₁).trans hleft)
      exact ih hfs hdeep

end

/-! ## The removal of a tree -/

/-- Recursive removal and the removal step of `create_dir` return and keep
everything outside the tree below their path, and so does a `create_dir` that
returns, exactly when the recursion, followed through all directories that open,
meets no regular file and no empty directory outside that tree which it may
remove. -/
theorem removal_keepsOutside_iff (K : Kernel) (s : FS) (path : Bytes) :
    (KeepsOutside K s (cString path) (fun K => fs_remove_dir K path true) ∧
      KeepsOutside K s (cString path) (fun K => clearDir K (cString path)) ∧
      ∀ order hperm errno w reply,
        fs_create_dir (reordered K order hperm) path true ⟨s, errno⟩ = .ok (w, reply) →
          KeptOutside K s (cString path) w) ↔
      NoEscape K s (cString path) := by
  constructor
  · rintro ⟨hkeeps, -⟩ loc htouches
    by_contra hout
    obtain ⟨guide, hguided⟩ := exists_guided htouches
    obtain ⟨node, hnode⟩ := lookup_of_touches htouches
    obtain ⟨w, reply, hrun, hkept⟩ := hkeeps (guideFirst guide) (guideFirst_perm guide) .ENOENT
    obtain ⟨⟨w', b⟩, hrmdir, hreply⟩ := Outcome.bind_eq_ok_iff.mp hrun
    have hgone := lookup_of_guided hguided rfl hrmdir
    have hw : w' = w := (Prod.mk.inj (Outcome.ok.inj hreply)).1
    rw [hw, hkept loc node hnode hout] at hgone
    simp at hgone
  · intro hescape
    have hclear := clearDir_keeps hescape
    refine ⟨fs_remove_dir_keeps hescape, hclear, fun order hperm errno w reply hrun => ?_⟩
    obtain ⟨w₁, failed, hcleared, hkept⟩ := hclear order hperm errno
    refine fs_create_dir_keptOutside (fun w₂ failed' hcleared' => ?_) hrun
    obtain ⟨rfl, -⟩ := Outcome.ok_prod_inj (hcleared.symm.trans hcleared')
    exact hkept

/-- A directory `/d` with a link to the directory `/o`, which holds a file. -/
def linked : FS where
  nodes := [([bytes "d"], .dir), ([bytes "l", bytes "d"], .link ⟨bytes "/o", by decide⟩),
    ([bytes "o"], .dir), ([bytes "f", bytes "o"], .file (bytes "x"))]
  cwd := some []
  nodup := by decide
  parents := by decide
  named := by decide

theorem remove_dir_follows_links :
    ¬ KeepsOutside permissive linked (bytes "/d") (fun K => fs_remove_dir K (bytes "/d") true) := by
  intro h
  obtain ⟨w, reply, hrun, hkept⟩ := h (fun _ xs => xs) (fun _ _ => List.Perm.refl _) .ENOENT
  have hgone : (match fs_remove_dir permissive (bytes "/d") true ⟨linked, .ENOENT⟩ with
      | .ok (w, _) => w.fs.lookup [bytes "f", bytes "o"]
      | _ => some .other) = none := by
    decide +kernel
  rw [show fs_remove_dir permissive (bytes "/d") true ⟨linked, .ENOENT⟩ = _ from hrun] at hgone
  have hout : ¬ Inside permissive linked (bytes "/d") [bytes "f", bytes "o"] := by
    rintro ⟨top, htop, hsuffix⟩
    rw [show entryAt permissive linked (bytes "/d") = some [bytes "d"] from by decide +kernel,
      Option.some.injEq] at htop
    rw [← htop] at hsuffix
    revert hsuffix
    decide
  have hstill := hkept [bytes "f", bytes "o"] (.file (bytes "x")) (by decide +kernel) hout
  simp [hstill] at hgone

end Vklib.Fs
