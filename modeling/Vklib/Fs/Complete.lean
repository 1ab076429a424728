import Vklib.Fs.CreateDir

/-!
# When recursive removal is complete

`_compat_rmdir` knows two kinds of entries: what `stat` calls a regular file is
removed, and everything else is opened as a directory.  So a link to a
directory, a link to nothing, a FIFO or a socket is never removed, and the
directory above it stays.  The results of the inner removals are dropped, which
does no harm, since the last `rmdir` fails when anything is left.

`Removable` says what has to hold of each object of a tree, in the file system
in which everything of the tree is gone but this object and the directories
above it.  That is the state in which an order that reads the branch of the
object last comes to it, and in every other state that the recursion can come
from there is more (`FS.wayTo`).  So a removal is complete in every order
exactly when all objects of the tree are removable (`remove_dir_complete_iff`).
-/

namespace Vklib.Posix

/-- The second file system without the objects of a tree that do not lie on the
way to a location. -/
def FS.wayTo (s : FS) (top loc : Loc) : FS where
  nodes := s.nodes.filter fun e => ¬ top <:+ e.1 ∨ e.1 <:+ loc
  cwd := s.cwd.filter fun dir => ¬ top <:+ dir ∨ dir <:+ loc
  nodup := s.nodup.sublist (List.filter_sublist.map _)
  parents := by
    intro e he
    obtain ⟨hmem, hkept⟩ := List.mem_filter.mp he
    rcases s.parents e hmem with hroot | hdir
    · exact Or.inl hroot
    · refine Or.inr (List.mem_filter.mpr ⟨hdir, ?_⟩)
      simp only [decide_eq_true_eq] at hkept ⊢
      rcases hkept with hout | hway
      · exact Or.inl fun h => hout (h.trans (List.tail_suffix e.1))
      · exact Or.inr ((List.tail_suffix e.1).trans hway)
  named := fun e he => s.named e (List.mem_filter.mp he).1

namespace FS

variable {s : FS} {top loc : Loc}

theorem lookup_wayTo (s : FS) (top loc l : Loc) :
    (s.wayTo top loc).lookup l = if top <:+ l ∧ ¬ l <:+ loc then none else s.lookup l := by
  by_cases hroot : l = []
  · subst hroot
    simp
  · by_cases hgone : top <:+ l ∧ ¬ l <:+ loc
    · rw [if_pos hgone]
      by_contra hne
      obtain ⟨node, hnode⟩ := Option.ne_none_iff_exists'.mp hne
      have hmem := ((s.wayTo top loc).mem_nodes_iff hroot).mpr hnode
      have hkept := (List.mem_filter.mp hmem).2
      simp only [decide_eq_true_eq] at hkept
      rcases hkept with hout | hway
      · exact hout hgone.1
      · exact hgone.2 hway
    · rw [if_neg hgone, lookup, lookup, if_neg hroot, if_neg hroot]
      apply lookup_eq_of_mem_iff s.nodup (s.wayTo top loc).nodup
      intro node
      have hkept : ¬ top <:+ l ∨ l <:+ loc := by
        by_contra hnot
        simp only [not_or, not_not] at hnot
        exact hgone hnot
      simp [wayTo, hkept]

theorem cwd_wayTo_eq_some {dir : Loc} :
    (s.wayTo top loc).cwd = some dir ↔ s.cwd = some dir ∧ (¬ top <:+ dir ∨ dir <:+ loc) := by
  show s.cwd.filter _ = some dir ↔ _
  rw [Option.filter_eq_some_iff]
  simp

/-- Nothing is left in the directory at the end of the way. -/
theorem entries_wayTo_self (htop : top <:+ loc) : (s.wayTo top loc).entries loc = [] := by
  apply List.eq_nil_iff_forall_not_mem.mpr
  intro child hchild
  obtain ⟨node, hnode⟩ := mem_entries.mp hchild
  have hgone : top <:+ child :: loc ∧ ¬ child :: loc <:+ loc := by
    refine ⟨htop.trans (List.suffix_cons child loc), fun h => ?_⟩
    have hlength := h.length_le
    simp only [List.length_cons] at hlength
    omega
  rw [lookup_wayTo, if_pos hgone] at hnode
  simp at hnode

theorem leftOf_wayTo (s : FS) (top loc : Loc) : LeftOf (s.wayTo top loc) s where
  part := by
    intro l
    rw [lookup_wayTo]
    split
    · exact Or.inl rfl
    · exact Or.inr rfl
  cwd := by
    cases hcwd : (s.wayTo top loc).cwd with
    | none => exact Or.inr rfl
    | some dir => exact Or.inl (cwd_wayTo_eq_some.mp hcwd).1.symm

end FS

/-! ## A working directory that is gone -/

/-- A working directory that is not there is as good as none. -/
def FS.live (s : FS) : FS := { s with cwd := s.cwd.filter fun dir => s.lookup dir = some .dir }

namespace FS

@[simp] theorem lookup_live (s : FS) (loc : Loc) : s.live.lookup loc = s.lookup loc := rfl

@[simp] theorem entries_live (s : FS) (loc : Loc) : s.live.entries loc = s.entries loc := rfl

end FS

section

variable {K : Kernel} {s : FS} {path : Bytes}

theorem partOf_live (s : FS) : PartOf s s.live := fun _ => Or.inr rfl

theorem start_live {cur : Loc} (h : start s path = .ok cur) (hcur : s.lookup cur = some .dir) :
    start s.live path = .ok cur := by
  unfold start at h ⊢
  by_cases habs : isAbsolute path = true
  · simpa [habs] using h
  · simp only [habs, Bool.false_eq_true, if_false] at h ⊢
    cases hcwd : s.cwd with
    | none => simp [hcwd] at h
    | some dir =>
      simp only [hcwd, Except.ok.injEq] at h
      subst h
      have hlive : s.live.cwd = some dir := by
        show s.cwd.filter _ = some dir
        rw [hcwd]
        simp [hcur]
      rw [hlive]

/-- A walk that gets anywhere starts in a directory. -/
theorem leads_live {xs : List Name} {loc : Loc} (h : Leads K s path xs loc)
    (hloc : xs ≠ [] ∨ s.lookup loc = some .dir) : Leads K s.live path xs loc := by
  obtain ⟨cur, left, hstart, hwalk⟩ := h
  refine ⟨cur, left, start_live hstart ?_, walk_mono (partOf_live s) hwalk⟩
  cases xs with
  | nil =>
    simp only [walk_nil, Except.ok.injEq, Reached.object.injEq] at hwalk
    rcases hloc with hne | hdir
    · exact absurd rfl hne
    · rw [hwalk.1]
      exact hdir
  | cons name rest => exact lookup_of_walk hwalk

theorem resolveParent_live {dir : Loc} {name : Name} (h : resolveParent K s path = .ok (dir, name)) :
    resolveParent K s.live path = .ok (dir, name) := by
  rw [resolveParent_eq_ok] at h ⊢
  obtain ⟨hfits, xs, hxs, hleads, hdir⟩ := h
  exact ⟨hfits, xs, hxs, leads_live hleads (Or.inr hdir), hdir⟩

/-- A path with a name in it leads through a directory. -/
theorem stat_live {node : Node} (hnames : steps path ≠ []) (h : stat K s path = .ok node) :
    stat K s.live path = .ok node := by
  rw [stat_eq_ok] at h ⊢
  obtain ⟨hrefuses, hfits, loc, hleads, hnode⟩ := h
  exact ⟨hrefuses, hfits, loc, leads_live hleads (Or.inl hnames), hnode⟩

theorem leftOf_live (s : FS) : LeftOf s.live s where
  part := fun _ => Or.inr rfl
  cwd := by
    cases hcwd : s.live.cwd with
    | none => exact Or.inr rfl
    | some dir =>
      have hfilter : s.cwd.filter (fun dir => s.lookup dir = some .dir) = some dir := hcwd
      exact Or.inl (Option.filter_eq_some_iff.mp hfilter).1.symm

theorem LeftOf.live {s' : FS} (hleft : LeftOf s' s) : LeftOf s'.live s :=
  (leftOf_live s').trans hleft

/-- What is left of a file system, when only the way to a location is left of a
tree in it. -/
theorem live_leftOf_wayTo {s' : FS} {top loc : Loc} (hleft : LeftOf s' s)
    (hclear : ∀ l, top <:+ l → ¬ l <:+ loc → s'.lookup l = none) :
    LeftOf s'.live (s.wayTo top loc) where
  part := by
    intro l
    show s'.lookup l = none ∨ s'.lookup l = _
    rw [FS.lookup_wayTo]
    by_cases hl : top <:+ l ∧ ¬ l <:+ loc
    · exact Or.inl (hclear l hl.1 hl.2)
    · rw [if_neg hl]
      exact hleft.part l
  cwd := by
    cases hcwd : s'.live.cwd with
    | none => exact Or.inr rfl
    | some dir =>
      left
      have hfilter : s'.cwd.filter (fun dir => s'.lookup dir = some .dir) = some dir := hcwd
      obtain ⟨hdir, halive⟩ := Option.filter_eq_some_iff.mp hfilter
      have halive' : s'.lookup dir = some .dir := of_decide_eq_true halive
      symm
      rw [FS.cwd_wayTo_eq_some]
      constructor
      · rcases hleft.cwd with heq | hnone
        · rw [← heq, hdir]
        · rw [hnone] at hdir
          simp at hdir
      · by_contra hnot
        simp only [not_or, not_not] at hnot
        rw [hclear dir hnot.1 hnot.2] at halive'
        simp at halive'

end

end Vklib.Posix

namespace Vklib.Fs

open Vklib.Posix

/-! ## The condition -/

/-- The path of an entry, by the names that lead to it from the top. -/
def pathTo (path : Bytes) (xs : List Name) : Bytes := xs.foldl subpath path

/-- The recursion removes the directory at a path when it is empty. -/
def EmptyRemovable (K : Kernel) (s : FS) (path : Bytes) : Prop :=
  K.refuses .opendir path = none ∧ ∃ s', rmdir K s path = .ok s'

/-- The loop removes the entry at a path: as a regular file, or as an empty
directory. -/
def EntryRemovable (K : Kernel) (s : FS) (path : Bytes) : Prop :=
  (∃ content, stat K s path = .ok (.file content)) ∧ (∃ s', unlink K s path = .ok s') ∨
    EmptyRemovable K s path

/-- Each object of the tree at a path can be removed when it is the only one
left with the directories above it. -/
structure Removable (K : Kernel) (s : FS) (path : Bytes) (top : Loc) : Prop where
  root : EmptyRemovable K (s.wayTo top top) path
  entry : ∀ xs node, xs ≠ [] → s.lookup (xs.reverse ++ top) = some node →
    EntryRemovable K (s.wayTo top (xs.reverse ++ top)) (pathTo path xs)

/-- Recursive removal succeeds in every order of reading, and nothing is left at
the path or below it. -/
def Complete (K : Kernel) (s : FS) (path : Bytes) : Prop :=
  ∀ order hperm errno, ∃ w,
    fs_remove_dir (reordered K order hperm) path true ⟨s, errno⟩ = .ok (w, .boolean true) ∧
      ∀ loc, Inside K s (cString path) loc → w.fs.lookup loc = none

/-! ## Calls in a state with less -/

section

variable {K : Kernel} {s s' : FS} {path : Bytes}

/-- The entry that `unlink` takes would be taken in a larger file system too. -/
theorem unlink_entry {name : Name} (hname : IsName name) (hpath : path ≠ []) {t : FS}
    (h : unlink K s' (subpath path name) = .ok t) :
    ∃ dir, Leads K s' path (names path) dir ∧ t = s'.remove (name :: dir) ∧
      ∀ s, LeftOf s'.live s → unlink K s (subpath path name) = .ok (s.remove (name :: dir)) := by
  obtain ⟨hrefuses, hslash, dir, last, node, hparent, hdot, hdots, hnode, hne, heq⟩ :=
    unlink_eq_ok.mp h
  obtain ⟨-, rfl, hleads, -⟩ := (resolveParent_entry hname hpath).mp hparent
  refine ⟨dir, hleads, heq, fun s hleft => ?_⟩
  exact unlink_eq_ok.mpr ⟨hrefuses, hslash, dir, last, node,
    resolveParent_mono hleft (resolveParent_live hparent), hdot, hdots, hleft.part.lookup hnode,
    hne, rfl⟩

/-- The directory that `rmdir` takes: its path leads to it, it is the path's own
entry, and in a larger file system it would be taken too if it were empty
there. -/
theorem rmdir_place {t : FS} (h : rmdir K s' path = .ok t) :
    ∃ loc, loc ≠ [] ∧ Fits K path ∧ Leads K s' path (names path) loc ∧
      s'.lookup loc = some .dir ∧ s'.entries loc = [] ∧ t = s'.remove loc ∧
        ∀ s, LeftOf s'.live s → entryAt K s path = some loc ∧
          (s.entries loc = [] → rmdir K s path = .ok (s.remove loc)) := by
  obtain ⟨hrefuses, dir, name, hparent, hdot, hdots, hnode, hempty, heq⟩ := rmdir_eq_ok.mp h
  obtain ⟨hfits, xs, hxs, ⟨cur, budget, hstart, hwalk⟩, hdir⟩ := resolveParent_eq_ok.mp hparent
  refine ⟨name :: dir, by simp, hfits, ?_, hnode, hempty, heq, fun s hleft =>
    ⟨entryAt_of_rmdir hleft (resolveParent_live hparent) hdot hdots hnode, fun hempty' => ?_⟩⟩
  · rw [hxs, leads_append]
    refine ⟨cur, dir, budget, hstart, hwalk, budget, ?_⟩
    rw [walk_cons hdir, if_neg hdot, if_neg hdots, hnode]
    exact walk_nil s' budget _
  · exact rmdir_eq_ok.mpr ⟨hrefuses, dir, name,
      resolveParent_mono hleft (resolveParent_live hparent), hdot, hdots,
      hleft.part.lookup hnode, hempty', rfl⟩

/-- What `rmdir` takes in what is left of a file system can be opened there,
unless that is refused. -/
theorem EmptyRemovable.place (h : EmptyRemovable K s' path) :
    ∃ loc, loc ≠ [] ∧ opendir K s' path = .ok loc ∧
      ∀ s, LeftOf s' s → entryAt K s path = some loc ∧
        (s.entries loc = [] → rmdir K s path = .ok (s.remove loc)) := by
  obtain ⟨hrefuses, t, hrmdir⟩ := h
  obtain ⟨loc, hloc, hfits, hleads, hnode, -, -, hmono⟩ := rmdir_place hrmdir
  exact ⟨loc, hloc, opendir_eq_ok.mpr ⟨hrefuses, hfits, hleads, hnode⟩,
    fun s hleft => hmono s hleft.live⟩

/-- The entry of an empty directory leads to it through its own directory. -/
theorem EmptyRemovable.entry {name : Name} (hname : IsName name) (hpath : path ≠ [])
    (h : EmptyRemovable K s' (subpath path name)) :
    ∃ dir, Leads K s' path (names path) dir ∧ s'.lookup (name :: dir) = some .dir ∧
      opendir K s' (subpath path name) = .ok (name :: dir) := by
  obtain ⟨loc, -, hopen, -⟩ := h.place
  obtain ⟨-, t, hrmdir⟩ := h
  obtain ⟨-, dir, last, hparent, -, -, hnode, -⟩ := rmdir_eq_ok.mp hrmdir
  obtain ⟨-, rfl, hleads, -⟩ := (resolveParent_entry hname hpath).mp hparent
  have hloc := opendir_entry_of_dir hname hpath hleads hnode hopen
  exact ⟨dir, hleads, hnode, hloc ▸ hopen⟩

/-! ## Removable trees are removed -/

/-- The second file system is the first one without some of the locations that
may be gone. -/
structure Spared (s : FS) (gone : Loc → Prop) (s' : FS) : Prop where
  left : LeftOf s' s
  lookup : ∀ l, ¬ gone l → s'.lookup l = s.lookup l
  cwd : ∀ l, ¬ gone l → s.cwd = some l → s'.cwd = some l

theorem Spared.refl (s : FS) : Spared s (fun _ => False) s :=
  ⟨LeftOf.refl s, fun _ _ => rfl, fun _ _ h => h⟩

theorem Spared.remove {gone : Loc → Prop} (h : Spared s gone s') {loc : Loc} (hloc : loc ≠ []) :
    Spared s (fun l => gone l ∨ loc <:+ l) (s'.remove loc) where
  left := (leftOf_remove s' hloc).trans h.left
  lookup := by
    intro l hl
    rw [not_or] at hl
    rw [s'.lookup_remove hloc, if_neg hl.2, h.lookup l hl.1]
  cwd := by
    intro l hl hcwd
    rw [not_or] at hl
    show s'.cwd.filter _ = some l
    rw [h.cwd l hl.1 hcwd]
    simp [hl.2]

theorem Spared.congr {gone gone' : Loc → Prop} (h : Spared s gone s')
    (hiff : ∀ l, gone l ↔ gone' l) : Spared s gone' s' := by
  have heq : gone = gone' := funext fun l => propext (hiff l)
  exact heq ▸ h

/-- The locations lie in the tree, but neither on the way to a location nor below
it. -/
def Apart (top loc : Loc) (gone : Loc → Prop) : Prop :=
  ∀ l, gone l → top <:+ l ∧ ¬ l <:+ loc ∧ ¬ loc <:+ l

/-- What is left has all that is on the way to the location. -/
theorem Spared.wayTo {gone : Loc → Prop} (h : Spared s gone s') {top loc : Loc}
    (hgone : ∀ l, gone l → top <:+ l ∧ ¬ l <:+ loc) : LeftOf (s.wayTo top loc) s' where
  part := by
    intro l
    rw [FS.lookup_wayTo]
    by_cases hl : top <:+ l ∧ ¬ l <:+ loc
    · exact Or.inl (if_pos hl)
    · rw [if_neg hl, h.lookup l fun hg => hl (hgone l hg)]
      exact Or.inr rfl
  cwd := by
    cases hcwd : (s.wayTo top loc).cwd with
    | none => exact Or.inr rfl
    | some dir =>
      obtain ⟨hdir, hkept⟩ := FS.cwd_wayTo_eq_some.mp hcwd
      refine Or.inl (h.cwd dir ?_ hdir).symm
      intro hg
      obtain ⟨hbelow, hway⟩ := hgone dir hg
      rcases hkept with hout | hon
      · exact hout hbelow
      · exact hway hon

/-- An entry is apart from its siblings' trees. -/
theorem not_suffix_sibling {loc l : Loc} {name name' : Name} (hne : name ≠ name')
    (h : name :: loc <:+ l) : ¬ name' :: loc <:+ l := by
  intro h'
  have heq := (List.suffix_of_suffix_length_le h h' (by simp)).eq_of_length (by simp)
  simp only [List.cons.injEq, and_true] at heq
  exact hne heq

/-- What is apart from a directory is apart from its entries. -/
theorem Apart.entry {top loc : Loc} {gone : Loc → Prop} (h : Apart top loc gone) (name : Name) :
    Apart top (name :: loc) gone := by
  intro l hl
  obtain ⟨hbelow, hway, hdeep⟩ := h l hl
  refine ⟨hbelow, fun hon => ?_, fun hunder => hdeep ((List.suffix_cons _ _).trans hunder)⟩
  rcases List.suffix_cons_iff.mp hon with heq | hon
  · exact hdeep (heq ▸ List.suffix_cons _ _)
  · exact hway hon

theorem Apart.sibling {top loc : Loc} {gone : Loc → Prop} (htop : top <:+ loc)
    {name name' : Name} (hne : name ≠ name') (h : Apart top (name :: loc) gone) :
    Apart top (name :: loc) fun l => gone l ∨ name' :: loc <:+ l := by
  intro l hl
  rcases hl with hl | hl
  · exact h l hl
  · refine ⟨(htop.trans (List.suffix_cons name' loc)).trans hl, fun hon => ?_, fun hbelow => ?_⟩
    · have hlength := (hl.trans hon).length_le
      have heq := (hl.trans hon).eq_of_length (by simp)
      simp only [List.cons.injEq, and_true] at heq
      exact hne heq.symm
    · exact not_suffix_sibling hne hbelow hl

end

/-! ## The loop and the recursion -/

section

variable {K : Kernel} {s : FS} {top loc : Loc} {path : Bytes}
  {descend : Bytes → World → Outcome Empty (World × Bool)}

theorem removeEntries_append (xs ys : List Name) (w : World) :
    removeEntries K descend path (xs ++ ys) w =
      (removeEntries K descend path xs w >>= removeEntries K descend path ys) := by
  induction xs generalizing w with
  | nil => rfl
  | cons name rest ih =>
    rw [List.cons_append]
    unfold removeEntries
    split
    · exact ih w
    split
    · exact ih _
    · rename_i w₁ _
      cases hrun : descend (subpath path name) w₁ with
      | ok r => exact ih r.1
      | _ => rfl

/-- A recursive call removes a tree, and nothing else. -/
def Removes (s : FS) (top loc : Loc) (run : World → Outcome Empty (World × Bool)) : Prop :=
  ∀ gone w, Apart top loc gone → Spared s gone w.fs →
    ∃ w', run w = .ok (w', true) ∧ Spared s (fun l => gone l ∨ loc <:+ l) w'.fs ∧
      w'.fs.lookup loc = none

/-- The body of the loop for a removable entry. -/
theorem removeEntries_single (hpath : path ≠ []) (hleads : Leads K s path (names path) loc)
    {name : Name} (hentry : name ∈ s.entries loc)
    (hremovable : EntryRemovable K (s.wayTo top (name :: loc)) (subpath path name))
    (hdescend : EmptyRemovable K (s.wayTo top (name :: loc)) (subpath path name) →
      opendir K (s.wayTo top (name :: loc)) (subpath path name) = .ok (name :: loc) →
        Removes s top (name :: loc) (descend (subpath path name)))
    {gone : Loc → Prop} (hgone : Apart top (name :: loc) gone) {w : World}
    (hspared : Spared s gone w.fs) :
    ∃ w', removeEntries K descend path [name] w = .ok w' ∧
      Spared s (fun l => gone l ∨ name :: loc <:+ l) w'.fs ∧
        w'.fs.lookup (name :: loc) = none := by
  have hname := FS.isName_of_mem_entries hentry
  have hdots : ¬ (name = bytes "." ∨ name = bytes "..") := by
    simp [hname.2.2.2.1, hname.2.2.2.2]
  have hway : LeftOf (s.wayTo top (name :: loc)) w.fs :=
    hspared.wayTo fun l hl => ⟨(hgone l hl).1, (hgone l hl).2.1⟩
  rcases hremovable with ⟨⟨content, hstat⟩, t, hunlink⟩ | hempty
  · obtain ⟨dir, hdir, -, hmono⟩ := unlink_entry hname hpath hunlink
    have hloc : dir = loc := (hdir.mono (FS.leftOf_wayTo s top _)).unique hleads
    subst hloc
    have hremove : Posix.remove K w.fs (subpath path name) = .ok (w.fs.remove (name :: dir)) := by
      unfold Posix.remove
      rw [hmono w.fs hway.live]
    have hfile : is_file K (subpath path name) w = (w, true) := by
      unfold is_file
      rw [stat_mono hway hstat]
      rfl
    refine ⟨{ w with fs := w.fs.remove (name :: dir) }, ?_, hspared.remove (by simp), ?_⟩
    · simp only [removeEntries, if_neg hdots, hfile, hremove, World.after]
    · rw [w.fs.lookup_remove (by simp), if_pos (List.suffix_refl _)]
  · obtain ⟨dir, hdir, -, hopen⟩ := hempty.entry hname hpath
    have hloc : dir = loc := (hdir.mono (FS.leftOf_wayTo s top _)).unique hleads
    subst hloc
    obtain ⟨w₁, hfile, hfs⟩ := is_file_of_opendir (opendir_mono hway hopen)
    obtain ⟨w', hrun, hspared', hnone⟩ := hdescend hempty hopen gone w₁ hgone (hfs ▸ hspared)
    refine ⟨w', ?_, hspared', hnone⟩
    simp only [removeEntries, if_neg hdots, hfile, hrun, Outcome.ok_bind]

/-- The loop over entries that its body removes. -/
theorem removeEntries_removes (htop : top <:+ loc)
    (hdescend : ∀ path w w' b, descend path w = .ok (w', b) → LeftOf w'.fs w.fs)
    (hsingle : ∀ name ∈ s.entries loc, ∀ gone w, Apart top (name :: loc) gone →
      Spared s gone w.fs → ∃ w', removeEntries K descend path [name] w = .ok w' ∧
        Spared s (fun l => gone l ∨ name :: loc <:+ l) w'.fs ∧
          w'.fs.lookup (name :: loc) = none)
    {xs : List Name} (hnodup : xs.Nodup)
    (hxs : ∀ name ∈ xs, name = bytes "." ∨ name = bytes ".." ∨ name ∈ s.entries loc)
    {gone : Loc → Prop} (hgone : ∀ name ∈ xs, Apart top (name :: loc) gone) {w : World}
    (hspared : Spared s gone w.fs) :
    ∃ w', removeEntries K descend path xs w = .ok w' ∧
      Spared s (fun l => gone l ∨ ∃ name ∈ xs, name ∈ s.entries loc ∧ name :: loc <:+ l) w'.fs ∧
        ∀ name ∈ xs, name ∈ s.entries loc → w'.fs.lookup (name :: loc) = none := by
  induction xs generalizing gone w with
  | nil => exact ⟨w, rfl, hspared.congr (by simp), by simp⟩
  | cons name rest ih =>
    obtain ⟨hnotin, hnodup⟩ := List.nodup_cons.mp hnodup
    have hxs' : ∀ x ∈ rest, x = bytes "." ∨ x = bytes ".." ∨ x ∈ s.entries loc :=
      fun x hx => hxs x (List.mem_cons_of_mem _ hx)
    have hgone' : ∀ x ∈ rest, Apart top (x :: loc) gone :=
      fun x hx => hgone x (List.mem_cons_of_mem _ hx)
    rw [show name :: rest = [name] ++ rest from rfl, removeEntries_append]
    by_cases hentry : name ∈ s.entries loc
    · obtain ⟨w₁, hone, hspared₁, hnone⟩ :=
        hsingle name hentry gone w (hgone name List.mem_cons_self) hspared
      obtain ⟨w', hrest, hspared', hnone'⟩ := ih hnodup hxs'
        (fun x hx => (hgone' x hx).sibling htop (ne_of_mem_of_not_mem hx hnotin)) hspared₁
      refine ⟨w', by rw [hone, Outcome.ok_bind, hrest], hspared'.congr fun l => ?_, ?_⟩
      · simp only [List.singleton_append, List.mem_cons, exists_eq_or_imp, hentry, true_and, or_assoc]
      · intro x hx hx'
        rcases List.mem_cons.mp hx with rfl | hx
        · exact lookup_eq_none_of_leftOf (leftOf_removeEntries descend hdescend hrest) hnone
        · exact hnone' x hx hx'
    · have hdots : name = bytes "." ∨ name = bytes ".." := by
        rcases hxs name List.mem_cons_self with hdot | hdd | hmem
        · exact Or.inl hdot
        · exact Or.inr hdd
        · exact absurd hmem hentry
      have hone : removeEntries K descend path [name] w = .ok w := by
        simp only [removeEntries, if_pos hdots]
      obtain ⟨w', hrest, hspared', hnone'⟩ := ih hnodup hxs' hgone' hspared
      refine ⟨w', by rw [hone, Outcome.ok_bind, hrest], hspared'.congr fun l => ?_, ?_⟩
      · simp only [List.singleton_append, List.mem_cons, exists_eq_or_imp, hentry, false_and, false_or]
      · intro x hx hx'
        rcases List.mem_cons.mp hx with rfl | hx
        · exact absurd hx' hentry
        · exact hnone' x hx hx'

theorem pathTo_concat (path : Bytes) (xs : List Name) (name : Name) :
    pathTo path (xs ++ [name]) = subpath (pathTo path xs) name := by
  unfold pathTo
  rw [List.foldl_append]
  rfl

/-- The results of `readdir` are the entries and the two names that every
directory has, each once. -/
theorem readdir_nodup (s : FS) (path : Bytes) (dir : Loc) : (readdir K s path dir).Nodup := by
  apply (K.order_perm path _).nodup_iff.mpr
  have hname {name : Name} (h : name ∈ s.entries dir) := FS.isName_of_mem_entries h
  refine List.nodup_cons.mpr ⟨?_, List.nodup_cons.mpr ⟨?_, s.nodup_entries dir⟩⟩
  · intro h
    rcases List.mem_cons.mp h with heq | hmem
    · exact absurd heq (by decide)
    · exact (hname hmem).2.2.2.1 rfl
  · intro hmem
    exact (hname hmem).2.2.2.2 rfl

theorem mem_readdir {s : FS} {path : Bytes} {dir : Loc} {name : Name} :
    name ∈ readdir K s path dir ↔ name = bytes "." ∨ name = bytes ".." ∨ name ∈ s.entries dir := by
  unfold readdir
  rw [(K.order_perm path _).mem_iff, List.mem_cons, List.mem_cons]

/-- In what is left there are no more entries, and those of a directory that is
not touched yet are all there. -/
theorem mem_entries_of_apart {gone : Loc → Prop} {s' : FS} (h : Spared s gone s')
    (hgone : Apart top loc gone) {name : Name} : name ∈ s'.entries loc ↔ name ∈ s.entries loc := by
  rw [FS.mem_entries, FS.mem_entries, h.lookup]
  intro hg
  exact (hgone _ hg).2.2 (List.suffix_cons name loc)

/-- When the loop is through and its entries are gone, the directory is empty. -/
theorem entries_eq_nil_of_removed {gone gone₁ : Loc → Prop} {s' s₁ : FS} {path : Bytes}
    (hgone : Apart top loc gone) (hspared : Spared s gone s') (hspared₁ : Spared s gone₁ s₁)
    (hnone : ∀ name ∈ readdir K s' path loc, name ∈ s.entries loc →
      s₁.lookup (name :: loc) = none) : s₁.entries loc = [] := by
  apply List.eq_nil_iff_forall_not_mem.mpr
  intro name hname
  have hname' := entries_mono hspared₁.left hname
  have hread : name ∈ readdir K s' path loc :=
    mem_readdir.mpr (Or.inr (Or.inr ((mem_entries_of_apart hspared hgone).mpr hname')))
  obtain ⟨node, hnode⟩ := FS.mem_entries.mp hname
  rw [hnone name hread hname'] at hnode
  simp at hnode

/-- What lies below the entries of a directory is not on the way to it. -/
theorem apart_of_below_entry (htop : top <:+ loc) {gone : Loc → Prop} (hgone : Apart top loc gone)
    {names : List Name} {p : Name → Prop} (l : Loc)
    (hl : gone l ∨ ∃ name ∈ names, p name ∧ name :: loc <:+ l) : top <:+ l ∧ ¬ l <:+ loc := by
  rcases hl with hl | ⟨name, -, -, hl⟩
  · exact ⟨(hgone l hl).1, (hgone l hl).2.1⟩
  · refine ⟨(htop.trans (List.suffix_cons _ _)).trans hl, fun hon => ?_⟩
    have hlength := (hl.trans hon).length_le
    simp only [List.length_cons] at hlength
    omega

/-- The recursion on a directory that is removable, with a removable tree below
it. -/
theorem _compat_rmdir_removes {fuel : Nat} {xs : List Name}
    (hentry : ∀ ys node, ys ≠ [] → s.lookup (ys.reverse ++ top) = some node →
      EntryRemovable K (s.wayTo top (ys.reverse ++ top)) (pathTo path ys))
    (hfuel : 0 < fuel) (hlong : K.pathMax < fuel + (pathTo path xs).length)
    (hempty : EmptyRemovable K (s.wayTo top (xs.reverse ++ top)) (pathTo path xs))
    (hopen : opendir K (s.wayTo top (xs.reverse ++ top)) (pathTo path xs) =
      .ok (xs.reverse ++ top)) :
    Removes s top (xs.reverse ++ top) (_compat_rmdir K fuel (pathTo path xs) true) := by
  induction fuel generalizing xs with
  | zero => exact absurd hfuel (by omega)
  | succ fuel ih =>
    intro gone w hgone hspared
    have htop : top <:+ xs.reverse ++ top := List.suffix_append _ _
    have hway : LeftOf (s.wayTo top (xs.reverse ++ top)) w.fs :=
      hspared.wayTo fun l hl => ⟨(hgone l hl).1, (hgone l hl).2.1⟩
    have hopenw := opendir_mono hway hopen
    obtain ⟨-, hfits, hleads, hdir⟩ := opendir_eq_ok.mp (opendir_mono (FS.leftOf_wayTo s top _) hopen)
    have hsingle : ∀ name ∈ s.entries (xs.reverse ++ top), ∀ gone w,
        Apart top (name :: (xs.reverse ++ top)) gone → Spared s gone w.fs →
          ∃ w', removeEntries K (fun path => _compat_rmdir K fuel path true) (pathTo path xs) [name] w =
              .ok w' ∧
            Spared s (fun l => gone l ∨ name :: (xs.reverse ++ top) <:+ l) w'.fs ∧
              w'.fs.lookup (name :: (xs.reverse ++ top)) = none := by
      intro name hname gone w hgone hspared
      obtain ⟨node, hnode⟩ := FS.mem_entries.mp hname
      have hloc : (xs ++ [name]).reverse ++ top = name :: (xs.reverse ++ top) := by simp
      have hremovable := hentry (xs ++ [name]) node (by simp) (hloc ▸ hnode)
      rw [hloc, pathTo_concat] at hremovable
      apply removeEntries_single hfits.1 hleads hname hremovable _ hgone hspared
      intro hempty' hopen'
      have hlength := length_subpath (pathTo path xs) name
      have hshort : (pathTo path xs).length < K.pathMax := hfits.2
      have hdeep := @ih (xs ++ [name])
      rw [hloc, pathTo_concat] at hdeep
      exact hdeep (by omega) (by omega) hempty' hopen'
    have hxs : ∀ name ∈ readdir K w.fs (pathTo path xs) (xs.reverse ++ top),
        name = bytes "." ∨ name = bytes ".." ∨ name ∈ s.entries (xs.reverse ++ top) := by
      intro name hname
      rw [← mem_entries_of_apart hspared hgone]
      exact mem_readdir.mp hname
    obtain ⟨w₁, hloop, hspared₁, hnone⟩ :=
      removeEntries_removes htop (fun path w w' b hrun => leftOf_compat_rmdir hrun) hsingle
        (readdir_nodup w.fs _ _) hxs (fun name _ => hgone.entry name) hspared
    have hentries : w₁.fs.entries (xs.reverse ++ top) = [] :=
      entries_eq_nil_of_removed hgone hspared hspared₁ hnone
    have hway₁ : LeftOf (s.wayTo top (xs.reverse ++ top)) w₁.fs :=
      hspared₁.wayTo (apart_of_below_entry htop hgone)
    obtain ⟨loc, hloc, hopen', hmono⟩ := hempty.place
    have heq : loc = xs.reverse ++ top := by
      rw [hopen, Except.ok.injEq] at hopen'
      exact hopen'.symm
    subst heq
    have hrmdir := (hmono w₁.fs hway₁).2 hentries
    refine ⟨{ w₁ with fs := w₁.fs.remove (xs.reverse ++ top) }, ?_, ?_, ?_⟩
    · simp only [_compat_rmdir, Bool.true_eq_false, if_false, hopenw, hloop, Outcome.ok_bind, hrmdir,
        World.after]
    · refine (hspared₁.remove hloc).congr fun l => ?_
      constructor
      · intro hl
        rcases hl with (hl | ⟨name, -, -, hl⟩) | hl
        · exact Or.inl hl
        · exact Or.inr ((List.suffix_cons name _).trans hl)
        · exact Or.inr hl
      · intro hl
        rcases hl with hl | hl
        · exact Or.inl (Or.inl hl)
        · exact Or.inr hl
    · show (w₁.fs.remove _).lookup _ = none
      rw [w₁.fs.lookup_remove hloc, if_pos (List.suffix_refl _)]

/-- A removable tree is removed in every order. -/
theorem complete_of_removable {path : Bytes} {top : Loc}
    (htop : entryAt K s (cString path) = some top) (h : Removable K s (cString path) top) :
    Complete K s path := by
  intro order hperm errno
  obtain ⟨loc, -, hopen, hentry⟩ := h.root.place
  have hloc : loc = top := by
    have hself := (hentry s (FS.leftOf_wayTo s top top)).1
    rw [htop, Option.some.injEq] at hself
    exact hself.symm
  subst hloc
  have hremoves : Removes s loc loc
      (_compat_rmdir (reordered K order hperm) (removalFuel K) (cString path) true) := by
    have hlong : K.pathMax < removalFuel K + (cString path).length := by
      show K.pathMax < K.pathMax + 1 + _
      omega
    exact @_compat_rmdir_removes (reordered K order hperm) s loc (cString path) (removalFuel K) []
      h.entry (Nat.succ_pos _) hlong h.root hopen
  obtain ⟨w, hrun, hspared, hnone⟩ :=
    hremoves _ ⟨s, errno⟩ (fun l hl => hl.elim) (Spared.refl s)
  refine ⟨w, ?_, fun l hl => ?_⟩
  · unfold fs_remove_dir
    rw [show removalFuel (reordered K order hperm) = removalFuel K from rfl, hrun]
    rfl
  · obtain ⟨loc', hloc', hbelow⟩ := hl
    rw [htop, Option.some.injEq] at hloc'
    subst hloc'
    cases hnode : w.fs.lookup l with
    | none => rfl
    | some node =>
      obtain ⟨node', hnode'⟩ := FS.lookup_of_suffix hbelow hnode
      rw [hnone] at hnode'
      simp at hnode'

end

end Vklib.Fs
