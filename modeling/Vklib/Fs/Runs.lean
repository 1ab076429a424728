import Vklib.Fs.Contents
import Vklib.Fs.Removal

/-!
# Runs of the module on trees without links

`Op` is a call of one of the four functions that change the file system, and
`Run` a sequence of calls from a tree of files and directories.  It keeps a
history: the files that `create_file` reported as created and that no removal
has taken since.

Without links the recursion of `_compat_rmdir` stays in its tree (`noEscape`).
So an object disappears only when a call asked for the removal of the object or
of a tree that it lies in (`Op.keeps`), and by induction over the run all files
of the history are still there (`lookup_of_run`).  The calls themselves return
unless one does what C does not define (`runs_return_iff`).
-/

namespace Vklib.Fs

open Vklib.Posix

/-- The tree has files and directories only. -/
def LinkFree (s : FS) : Prop :=
  ∀ loc node, s.lookup loc = some node → node = .dir ∨ node.isFile = true

section

variable {K : Kernel} {s s' : FS} {path : Bytes}

theorem LinkFree.ne_link (h : LinkFree s) {loc : Loc} {node : Node}
    (hnode : s.lookup loc = some node) (target : Target) : node ≠ .link target := by
  rintro rfl
  rcases h loc _ hnode with hdir | hfile
  · simp at hdir
  · simp [Node.isFile] at hfile

theorem LinkFree.leftOf (h : LinkFree s) (hleft : LeftOf s' s) : LinkFree s' :=
  fun loc node hnode => h loc node (hleft.part.lookup hnode)

theorem LinkFree.add (h : LinkFree s) {node : Node} (hnode : node = .dir ∨ node.isFile = true)
    (dir : Loc) (name : Name) : LinkFree (s.add dir name node) := by
  intro loc node' hlookup
  by_cases hfree : IsName name ∧ s.lookup dir = some .dir ∧ s.lookup (name :: dir) = none
  · rw [FS.lookup_add hfree.1 hfree.2.1 hfree.2.2] at hlookup
    by_cases hloc : loc = name :: dir
    · rw [if_pos hloc, Option.some.injEq] at hlookup
      exact hlookup ▸ hnode
    · rw [if_neg hloc] at hlookup
      exact h loc node' hlookup
  · rw [FS.add, dif_neg hfree] at hlookup
    exact h loc node' hlookup

theorem LinkFree.written (h : LinkFree s) {loc : Loc} {text : Bytes}
    (hwritten : Written K path loc text s s') : LinkFree s' := by
  intro l node hlookup
  rw [hwritten.lookup] at hlookup
  by_cases hl : l = loc
  · rw [if_pos hl, Option.some.injEq] at hlookup
    exact Or.inr (by rw [← hlookup]; rfl)
  · rw [if_neg hl] at hlookup
    exact h l node hlookup

theorem lookup_of_written {loc : Loc} {text : Bytes} (hwritten : Written K path loc text s s')
    {l : Loc} {node : Node} (hnode : s.lookup l = some node) :
    ∃ node', s'.lookup l = some node' := by
  rw [hwritten.lookup]
  by_cases hl : l = loc
  · exact ⟨_, if_pos hl⟩
  · exact ⟨node, by rw [if_neg hl, hnode]⟩

/-! ## The recursion stays in its tree -/

/-- The own entry of a path that opens. -/
theorem entryAt_of_opendir (h : LinkFree s) {dir : Loc} (hopen : opendir K s path = .ok dir) :
    entryAt K s path = some dir := by
  obtain ⟨-, hfits, hleads, hdir⟩ := opendir_eq_ok.mp hopen
  unfold entryAt
  by_cases hslash : endsInSlash path = true
  · obtain ⟨left, hresolve⟩ :=
      resolve_eq_object.mpr ⟨hfits, leads_steps.mpr ⟨hleads, fun _ => hdir⟩⟩
    rw [if_pos hslash, hresolve]
  · rw [if_neg hslash]
    rcases List.eq_nil_or_concat (names path) with hnil | ⟨xs, name, hxs⟩
    · exact absurd (endsInSlash_of_names_eq_nil hfits.1 hnil) hslash
    rw [List.concat_eq_append] at hxs
    rw [hxs, leads_append] at hleads
    obtain ⟨cur, mid, budget, hstart, hwalk, left, hlast⟩ := hleads
    have hmid := lookup_of_walk hlast
    rw [resolveParent_eq_ok.mpr ⟨hfits, xs, hxs, ⟨cur, budget, hstart, hwalk⟩, hmid⟩]
    rw [walk_cons hmid] at hlast
    by_cases hdot : name = bytes "."
    · simp only [if_pos hdot, walk_nil, Except.ok.injEq, Reached.object.injEq] at hlast ⊢
      rw [hlast.1]
    by_cases hdots : name = bytes ".."
    · simp only [if_neg hdot, if_pos hdots, walk_nil, Except.ok.injEq, Reached.object.injEq]
        at hlast ⊢
      rw [hlast.1]
    simp only [if_neg hdot, if_neg hdots] at hlast ⊢
    cases hnode : s.lookup (name :: mid) with
    | none => simp [hnode] at hlast
    | some node =>
      have hself : walk s budget (name :: mid) [] = .ok (.object dir left) := by
        cases node with
        | link target => exact absurd rfl (h.ne_link hnode target)
        | _ => simpa only [hnode] using hlast
      simp only [walk_nil, Except.ok.injEq, Reached.object.injEq] at hself
      simp [hself.1]

theorem opendir_of_touches {loc : Loc} (h : Touches K s path loc) :
    ∃ dir, opendir K s path = .ok dir := by
  cases h with
  | file hopen => exact ⟨_, hopen⟩
  | empty hopen => exact ⟨_, hopen⟩
  | deeper hopen => exact ⟨_, hopen⟩

/-- What the recursion touches lies below the directory that it opened. -/
theorem suffix_of_touches (h : LinkFree s) {loc : Loc} (htouches : Touches K s path loc)
    {dir : Loc} (hopen : opendir K s path = .ok dir) : dir <:+ loc := by
  induction htouches generalizing dir with
  | file hopen' =>
    rw [hopen, Except.ok.injEq] at hopen'
    rw [hopen']
    exact List.suffix_cons _ _
  | empty hopen' =>
    rw [hopen, Except.ok.injEq] at hopen'
    rw [hopen']
    exact List.suffix_cons _ _
  | @deeper path dir' loc name hopen' hname htouches ih =>
    rw [hopen, Except.ok.injEq] at hopen'
    subst hopen'
    obtain ⟨deep, hdeep⟩ := opendir_of_touches htouches
    obtain ⟨node, hnode⟩ := FS.mem_entries.mp hname
    obtain ⟨-, hfits, hleads, -⟩ := opendir_eq_ok.mp hopen
    have hself := leads_entry (FS.isName_of_mem_entries hname) hfits.1 hleads hnode (h.ne_link hnode)
    have heq : deep = name :: dir := (opendir_eq_ok.mp hdeep).2.2.1.unique hself
    have hbelow := ih hdeep
    rw [heq] at hbelow
    exact (List.suffix_cons _ _).trans hbelow

/-- Without links, recursive removal takes nothing from outside its tree. -/
theorem noEscape (h : LinkFree s) : NoEscape K s path := by
  intro loc htouches
  obtain ⟨dir, hopen⟩ := opendir_of_touches htouches
  exact ⟨dir, entryAt_of_opendir h hopen, suffix_of_touches h htouches hopen⟩

/-! ## Single removals -/

/-- Below a directory without entries there is nothing. -/
theorem eq_of_entries_eq_nil {dir loc : Loc} (hempty : s.entries dir = []) {node : Node}
    (hnode : s.lookup loc = some node) (hbelow : dir <:+ loc) : loc = dir := by
  induction loc generalizing node with
  | nil => exact (List.suffix_nil.mp hbelow).symm
  | cons name rest ih =>
    rcases List.suffix_cons_iff.mp hbelow with heq | hrest
    · exact heq.symm
    · have hparent := ih (FS.lookup_parent hnode) hrest
      have hmem : name ∈ s.entries dir := FS.mem_entries.mpr ⟨node, hparent ▸ hnode⟩
      simp [hempty] at hmem

/-- `rmdir` takes the path's own entry and nothing else. -/
theorem lookup_of_rmdir (h : rmdir K s path = .ok s') {loc : Loc} {node : Node}
    (hnode : s.lookup loc = some node) (hother : entryAt K s path ≠ some loc) :
    s'.lookup loc = some node := by
  obtain ⟨-, dir, name, hparent, hdot, hdots, hdir, hempty, rfl⟩ := rmdir_eq_ok.mp h
  rw [s.lookup_remove (by simp), if_neg ?_, hnode]
  intro hbelow
  apply hother
  rw [eq_of_entries_eq_nil hempty hnode hbelow]
  exact entryAt_of_rmdir (LeftOf.refl s) hparent hdot hdots hdir

/-- `unlink` takes the path's own entry and nothing else. -/
theorem lookup_of_unlink (h : unlink K s path = .ok s') {loc : Loc} {node : Node}
    (hnode : s.lookup loc = some node) (hother : entryAt K s path ≠ some loc) :
    s'.lookup loc = some node := by
  obtain ⟨-, hslash, dir, name, entry, hparent, hdot, hdots, hentry, hdir, rfl⟩ := unlink_eq_ok.mp h
  rw [s.lookup_remove (by simp), if_neg ?_, hnode]
  intro hbelow
  apply hother
  rw [FS.eq_of_suffix hbelow hentry hdir hnode]
  simp [entryAt, hslash, hparent, hdot, hdots, hentry]

theorem lookup_of_remove (h : Posix.remove K s path = .ok s') {loc : Loc} {node : Node}
    (hnode : s.lookup loc = some node) (hother : entryAt K s path ≠ some loc) :
    s'.lookup loc = some node := by
  rcases remove_eq_ok h with hunlink | hrmdir
  · exact lookup_of_unlink hunlink hnode hother
  · exact lookup_of_rmdir hrmdir hnode hother

theorem leftOf_remove_call (h : Posix.remove K s path = .ok s') : LeftOf s' s := by
  rcases remove_eq_ok h with hunlink | hrmdir
  · exact leftOf_unlink hunlink
  · exact leftOf_rmdir hrmdir

end

/-! ## Calls -/

/-- A call that changes the file system. -/
inductive Op where
  | create_file (path contents : Bytes)
  | remove_file (path : Bytes)
  | create_dir (path : Bytes) (overwrite : Bool)
  | remove_dir (path : Bytes) (recurse : Bool)
  deriving DecidableEq, Repr

namespace Op

/-- Make the call. -/
def run (K : Kernel) : Op → World → Outcome Empty (World × Reply)
  | create_file path contents, w => fs_create_file K path contents w
  | remove_file path, w => .ok (fs_remove_file K path w)
  | create_dir path overwrite, w => fs_create_dir K path overwrite w
  | remove_dir path recurse, w => fs_remove_dir K path recurse w

/-- The call asks for the removal of the object, or of a tree that it lies
in. -/
def Asks (K : Kernel) (s : FS) (loc : Loc) : Op → Prop
  | create_file _ _ => False
  | remove_file path => entryAt K s (cString path) = some loc
  | create_dir path overwrite => overwrite = true ∧ Inside K s (cString path) loc
  | remove_dir path recurse =>
    if recurse then Inside K s (cString path) loc else entryAt K s (cString path) = some loc

/-- What a call may do to a tree without links. -/
structure Keeps (K : Kernel) (op : Op) (s s' : FS) : Prop where
  linkFree : LinkFree s'
  kept : ∀ loc node, s.lookup loc = some node → ¬ op.Asks K s loc →
    ∃ node', s'.lookup loc = some node'

end Op

section

variable {K : Kernel} {w w' : World}

theorem _compat_mkdir_linkFree {path : Bytes} {b : Bool} (h : LinkFree w.fs)
    (hrun : _compat_mkdir K path w = .ok (w', b)) : LinkFree w'.fs := by
  obtain ⟨-, e, -, rfl⟩ := _compat_mkdir_eq_ok.mp hrun
  cases hmk : mkdir K w.fs path with
  | error e' => exact h
  | ok fs =>
    obtain ⟨dir, name, rfl⟩ := mkdir_eq_ok hmk
    exact h.add (Or.inl rfl) dir name

/-- The directory is there after `ensureDir`, which takes nothing away. -/
theorem ensureDir_linkFree {dir : Bytes} {b : Bool} (h : LinkFree w.fs)
    (hrun : ensureDir K dir w = .ok (w', b)) :
    LinkFree w'.fs ∧ ∀ loc node, w.fs.lookup loc = some node → w'.fs.lookup loc = some node := by
  unfold ensureDir at hrun
  cases hstat : stat K w.fs dir with
  | ok node =>
    rw [hstat] at hrun
    obtain ⟨rfl, -⟩ := Outcome.ok_prod_inj hrun
    exact ⟨h, fun _ _ hnode => hnode⟩
  | error e =>
    rw [hstat] at hrun
    exact ⟨_compat_mkdir_linkFree (w := ⟨w.fs, e⟩) h hrun,
      fun loc node hnode => _compat_mkdir_kept (w := ⟨w.fs, e⟩) hrun hnode⟩

theorem create_file_keeps {path contents : Bytes} {reply : Reply} (h : LinkFree w.fs)
    (hrun : fs_create_file K path contents w = .ok (w', reply)) :
    (Op.create_file path contents).Keeps K w.fs w'.fs := by
  unfold fs_create_file at hrun
  by_cases hempty : cString path = []
  · simp [hempty] at hrun
  simp only [if_neg hempty] at hrun
  obtain ⟨⟨made, found⟩, hdir, hwrite⟩ := Outcome.bind_eq_ok_iff.mp hrun
  have hmade := ensureDir_linkFree h hdir
  have hsame : LinkFree made.fs ∧ ∀ loc node, w.fs.lookup loc = some node →
      ¬ (Op.create_file path contents).Asks K w.fs loc →
        ∃ node', made.fs.lookup loc = some node' :=
    ⟨hmade.1, fun loc node hnode _ => ⟨node, hmade.2 loc node hnode⟩⟩
  cases found with
  | false =>
    obtain ⟨rfl, -⟩ := Outcome.ok_prod_inj hwrite
    exact ⟨hsame.1, hsame.2⟩
  | true =>
    simp only [if_true, writeFile] at hwrite
    cases hopen : openWrite K made.fs (cString path) with
    | undefined => simp [hopen] at hwrite
    | outOfFuel => simp [hopen] at hwrite
    | error e =>
      rw [hopen] at hwrite
      obtain ⟨rfl, -⟩ := Outcome.ok_prod_inj hwrite
      exact ⟨hsame.1, hsame.2⟩
    | ok p =>
      obtain ⟨fs, loc⟩ := p
      have hwritten := written_of_openWrite (nulFree_cString path) hopen
        ((cString contents).take (K.accepts (cString path) (cString contents)))
      rw [hopen] at hwrite
      obtain ⟨rfl, -⟩ := Outcome.ok_prod_inj hwrite
      refine ⟨hmade.1.written hwritten, fun l node hnode _ => ?_⟩
      exact lookup_of_written hwritten (hmade.2 l node hnode)

theorem remove_file_keeps {path : Bytes} (h : LinkFree w.fs) :
    (Op.remove_file path).Keeps K w.fs (fs_remove_file K path w).1.fs := by
  unfold fs_remove_file
  cases hremove : Posix.remove K w.fs (cString path) with
  | error e => exact ⟨h, fun loc node hnode _ => ⟨node, hnode⟩⟩
  | ok fs =>
    refine ⟨h.leftOf (leftOf_remove_call hremove), fun loc node hnode hask => ⟨node, ?_⟩⟩
    exact lookup_of_remove hremove hnode hask

/-- `_compat_rmdir` without recursion is one `rmdir`. -/
theorem _compat_rmdir_flat (K : Kernel) (path : Bytes) (h : LinkFree w.fs) :
    ∃ b, _compat_rmdir K (removalFuel K) path false w =
        .ok ((w.after (rmdir K w.fs path)).1, b) ∧
      LinkFree (w.after (rmdir K w.fs path)).1.fs ∧
      ∀ loc node, w.fs.lookup loc = some node → entryAt K w.fs path ≠ some loc →
        (w.after (rmdir K w.fs path)).1.fs.lookup loc = some node := by
  refine ⟨(w.after (rmdir K w.fs path)).2, rfl, ?_⟩
  cases hrmdir : rmdir K w.fs path with
  | error e => exact ⟨h, fun loc node hnode _ => hnode⟩
  | ok fs =>
    refine ⟨h.leftOf (leftOf_rmdir hrmdir), fun loc node hnode hask => ?_⟩
    exact lookup_of_rmdir hrmdir hnode hask

/-- The recursion of `_compat_rmdir` takes only what lies in its tree. -/
theorem _compat_rmdir_deep (K : Kernel) (path : Bytes) (h : LinkFree w.fs) :
    ∃ w₁ b, _compat_rmdir K (removalFuel K) path true w = .ok (w₁, b) ∧ LinkFree w₁.fs ∧
      ∀ loc node, w.fs.lookup loc = some node → ¬ Inside K w.fs path loc →
        w₁.fs.lookup loc = some node := by
  obtain ⟨w₁, b, hrun, htrimmed⟩ := _compat_rmdir_keeps (noEscape h) K.order_perm w.errno
  exact ⟨w₁, b, hrun, h.leftOf htrimmed.left, htrimmed.kept⟩

theorem remove_dir_keeps {path : Bytes} {recurse : Bool} (h : LinkFree w.fs) :
    ∃ w' reply, fs_remove_dir K path recurse w = .ok (w', reply) ∧
      (Op.remove_dir path recurse).Keeps K w.fs w'.fs := by
  cases recurse with
  | false =>
    obtain ⟨b, hrun, hfree, hkept⟩ := _compat_rmdir_flat K (cString path) h
    refine ⟨_, _, by unfold fs_remove_dir; rw [hrun]; rfl, hfree, fun loc node hnode hask => ?_⟩
    exact ⟨node, hkept loc node hnode (by simpa [Op.Asks] using hask)⟩
  | true =>
    obtain ⟨w₁, b, hrun, hfree, hkept⟩ := _compat_rmdir_deep K (cString path) h
    refine ⟨_, _, by unfold fs_remove_dir; rw [hrun]; rfl, hfree, fun loc node hnode hask => ?_⟩
    exact ⟨node, hkept loc node hnode (by simpa [Op.Asks] using hask)⟩

/-- The removal step of `create_dir` takes only what lies below its path. -/
theorem clearDir_deep (K : Kernel) (path : Bytes) (h : LinkFree w.fs) :
    ∃ w₁ failed, clearDir K path w = .ok (w₁, failed) ∧ LinkFree w₁.fs ∧
      ∀ loc node, w.fs.lookup loc = some node → ¬ Inside K w.fs path loc →
        w₁.fs.lookup loc = some node := by
  obtain ⟨w₁, b, hrun, hfree, hkept⟩ := _compat_rmdir_deep K path h
  exact ⟨w₁, _, clearDir_of_compat_rmdir hrun, hfree, hkept⟩

theorem create_dir_keeps {path : Bytes} {overwrite : Bool} {reply : Reply} (h : LinkFree w.fs)
    (hrun : fs_create_dir K path overwrite w = .ok (w', reply)) :
    (Op.create_dir path overwrite).Keeps K w.fs w'.fs := by
  cases overwrite with
  | false =>
    have hmake := (makeDir_eq_ok.mp hrun).1
    exact ⟨_compat_mkdir_linkFree h hmake,
      fun loc node hnode _ => ⟨node, _compat_mkdir_kept hmake hnode⟩⟩
  | true =>
    obtain ⟨w₁, failed, hclear, hfree, hkept⟩ := clearDir_deep K (cString path) h
    simp only [fs_create_dir, if_true, hclear, Outcome.ok_bind] at hrun
    cases failed with
    | some reply' =>
      obtain ⟨rfl, -⟩ := Outcome.ok_prod_inj hrun
      exact ⟨hfree, fun loc node hnode hask =>
        ⟨node, hkept loc node hnode fun hinside => hask ⟨rfl, hinside⟩⟩⟩
    | none =>
      have hmake := (makeDir_eq_ok.mp hrun).1
      refine ⟨_compat_mkdir_linkFree hfree hmake, fun loc node hnode hask => ⟨node, ?_⟩⟩
      exact _compat_mkdir_kept hmake (hkept loc node hnode fun hinside => hask ⟨rfl, hinside⟩)

/-- A call on a tree without links leaves one, and an object disappears only
when the call asks for it. -/
theorem Op.keeps {op : Op} {reply : Reply} (h : LinkFree w.fs) (hrun : op.run K w = .ok (w', reply)) :
    op.Keeps K w.fs w'.fs := by
  cases op with
  | create_file path contents => exact create_file_keeps h hrun
  | remove_file path =>
    rw [← (Prod.mk.inj (Outcome.ok.inj hrun)).1]
    exact remove_file_keeps h
  | create_dir path overwrite => exact create_dir_keeps h hrun
  | remove_dir path recurse =>
    obtain ⟨w₁, reply', hrun', hkeeps⟩ := remove_dir_keeps (K := K) h
    rw [Op.run, hrun', Outcome.ok.injEq, Prod.mk.injEq] at hrun
    exact hrun.1 ▸ hkeeps

/-! ## The calls that return -/

/-- `create_dir` comes to `_compat_mkdir` in this file system: that of the call,
or what the removal leaves. -/
def ReachesMkdir (K : Kernel) (path : Bytes) (overwrite : Bool) (w : World) (s : FS) : Prop :=
  if overwrite then
    ∃ w₁ removed, _compat_rmdir K (removalFuel K) (cString path) true w = .ok (w₁, removed) ∧
      (removed = true ∨ w₁.errno = .ENOENT) ∧ s = w₁.fs
  else s = w.fs

/-- The call does what C does not define: the copy of an empty path has no room
for `"."`, and what `stat` finds for `_compat_mkdir` is written over the stack. -/
def Op.Overruns (K : Kernel) (w : World) : Op → Prop
  | create_file path _ => cString path = []
  | create_dir path overwrite =>
    ∃ s node, ReachesMkdir K path overwrite w s ∧ stat K s (cString path) = .ok node
  | remove_file _ => False
  | remove_dir _ _ => False

theorem makeDir_returns_iff {path : Bytes} :
    (∃ w' reply, makeDir K path w = .ok (w', reply)) ↔ ∀ node, stat K w.fs path ≠ .ok node := by
  cases hstat : stat K w.fs path with
  | ok node =>
    refine iff_of_false ?_ (by simp)
    rintro ⟨w', reply, hrun⟩
    obtain ⟨-, e, herror, -⟩ := _compat_mkdir_eq_ok.mp (makeDir_eq_ok.mp hrun).1
    rw [hstat] at herror
    simp at herror
  | error e =>
    have hmake := makeDir_eq_ok.mpr ⟨_compat_mkdir_eq_ok.mpr ⟨rfl, e, hstat, rfl⟩, rfl⟩
    exact iff_of_true ⟨_, _, hmake⟩ (by simp)

/-- `create_dir` ends with `makeDir` in the file systems where it comes to
`_compat_mkdir`, or fails after the removal, which returns. -/
theorem fs_create_dir_cases (overwrite : Bool) {path : Bytes} {w : World}
    (hreturns : ∃ w₁ removed,
      _compat_rmdir K (removalFuel K) (cString path) true w = .ok (w₁, removed)) :
    (∃ w₁, fs_create_dir K path overwrite w = makeDir K (cString path) w₁ ∧
      (overwrite = false → w₁ = w) ∧ ∀ s, ReachesMkdir K path overwrite w s ↔ s = w₁.fs) ∨
    (∃ w₁, fs_create_dir K path overwrite w = .ok (w₁, w₁.failure "rmdir") ∧ overwrite = true ∧
      ∀ s, ¬ ReachesMkdir K path overwrite w s) := by
  cases overwrite with
  | false => exact Or.inl ⟨w, rfl, fun _ => rfl, fun s => by simp [ReachesMkdir]⟩
  | true =>
    obtain ⟨w₁, removed, hrun⟩ := hreturns
    have hreaches (s : FS) : ReachesMkdir K path true w s ↔
        (removed = true ∨ w₁.errno = .ENOENT) ∧ s = w₁.fs := by
      unfold ReachesMkdir
      rw [if_pos rfl]
      constructor
      · rintro ⟨w₂, removed', hrun', hcase⟩
        obtain ⟨rfl, rfl⟩ := Outcome.ok_prod_inj (hrun.symm.trans hrun')
        exact hcase
      · exact fun h => ⟨w₁, removed, hrun, h⟩
    simp only [fs_create_dir, if_true, clearDir_of_compat_rmdir hrun, Outcome.ok_bind]
    by_cases hfail : removed = false ∧ w₁.errno ≠ .ENOENT
    · refine Or.inr ⟨w₁, by rw [if_pos hfail], trivial, fun s h => ?_⟩
      rcases ((hreaches s).mp h).1 with hremoved | henoent
      · simp [hremoved] at hfail
      · exact hfail.2 henoent
    · refine Or.inl ⟨w₁, by rw [if_neg hfail], by simp, fun s => ?_⟩
      have hcase : removed = true ∨ w₁.errno = .ENOENT := by
        by_contra hnot
        simp only [not_or, Bool.not_eq_true] at hnot
        exact hfail hnot
      rw [hreaches s, and_iff_right hcase]

/-- Without links and FIFOs no call of `fopen` waits. -/
theorem openWrite_ne_outOfFuel {path : Bytes} {s : FS} (h : LinkFree s) :
    openWrite K s path ≠ .outOfFuel := by
  intro hwaits
  have hfifo := (fopen_eq_outOfFuel.mp hwaits).2
  unfold leadsToFifo at hfifo
  cases hresolve : resolve K s path with
  | error e => simp [hresolve] at hfifo
  | ok r =>
    cases r with
    | missing loc => simp [hresolve] at hfifo
    | object loc left =>
      simp only [hresolve, decide_eq_true_eq] at hfifo
      rcases h loc _ hfifo with hdir | hfile
      · simp at hdir
      · simp [Node.isFile] at hfile

theorem writeFile_returns {path contents : Bytes} (h : LinkFree w.fs) :
    ∃ w' reply, writeFile K path contents w = .ok (w', reply) := by
  unfold writeFile
  cases hopen : openWrite K w.fs path with
  | ok p => exact ⟨_, _, rfl⟩
  | error e => exact ⟨_, _, rfl⟩
  | undefined => exact absurd hopen fopen_ne_undefined
  | outOfFuel => exact absurd hopen (openWrite_ne_outOfFuel h)

theorem ensureDir_returns (K : Kernel) (dir : Bytes) (w : World) :
    ∃ w', ensureDir K dir w = .ok (w', true) := by
  unfold ensureDir
  cases hstat : stat K w.fs dir with
  | ok node => exact ⟨w, rfl⟩
  | error e => exact ⟨_, _compat_mkdir_eq_ok.mpr ⟨rfl, e, hstat, rfl⟩⟩

/-- A call on a tree of files and directories returns exactly when it does
nothing undefined. -/
theorem Op.run_returns_iff {op : Op} (h : LinkFree w.fs) :
    (∃ w' reply, op.run K w = .ok (w', reply)) ↔ ¬ op.Overruns K w := by
  cases op with
  | create_file path contents =>
    simp only [Op.run, Op.Overruns, fs_create_file]
    by_cases hempty : cString path = []
    · simp [hempty]
    obtain ⟨made, hdir⟩ := ensureDir_returns K (dirPart (cString path)) w
    refine iff_of_true ?_ hempty
    rw [if_neg hempty, hdir]
    exact writeFile_returns (ensureDir_linkFree h hdir).1
  | remove_file path => exact iff_of_true ⟨_, _, rfl⟩ not_false
  | create_dir path overwrite =>
    obtain ⟨w₂, removed, hremoved, -⟩ := _compat_rmdir_deep K (cString path) h
    simp only [Op.run, Op.Overruns]
    rcases fs_create_dir_cases overwrite ⟨w₂, removed, hremoved⟩ with
      ⟨w₁, hrun, -, hreaches⟩ | ⟨w₁, hrun, -, hreaches⟩
    · rw [hrun, makeDir_returns_iff]
      simp only [hreaches, not_exists, not_and]
      exact ⟨fun h s node hs => hs ▸ h node, fun h node => h w₁.fs node rfl⟩
    · refine iff_of_true ⟨_, _, hrun⟩ ?_
      rintro ⟨s, node, hs, -⟩
      exact hreaches s hs
  | remove_dir path recurse =>
    obtain ⟨w', reply, hrun, -⟩ : ∃ w' reply, fs_remove_dir K path recurse w = .ok (w', reply) ∧
        (Op.remove_dir path recurse).Keeps K w.fs w'.fs := remove_dir_keeps h
    exact iff_of_true ⟨w', reply, hrun⟩ not_false

end

/-! ## Runs -/

/-- The call reported that it created the file at the location. -/
def Op.Created (K : Kernel) (fs : FS) (reply : Reply) (loc : Loc) : Op → Prop
  | .create_file path _ =>
    reply = .boolean true ∧ ∃ left, resolve K fs (cString path) = .ok (.object loc left)
  | _ => False

/-- The files that were created and not removed since, after one more call: it
removes what it asks for and what is then gone. -/
def Op.history (K : Kernel) (op : Op) (w w' : World) (reply : Reply) (created : Set Loc) : Set Loc :=
  { loc | (loc ∈ created ∧ ¬ (op.Asks K w.fs loc ∧ w'.fs.lookup loc = none)) ∨
    op.Created K w'.fs reply loc }

/-- The states that calls lead to from a tree without links, each with the files
created on the way and not removed since. -/
inductive Run (s : FS) : World → Set Loc → Prop
  | start (errno : Errno) : LinkFree s → Run s ⟨s, errno⟩ ∅
  | call {w w' : World} {created : Set Loc} (K : Kernel) (op : Op) {reply : Reply} :
      Run s w created → op.run K w = .ok (w', reply) → Run s w' (op.history K w w' reply created)

theorem linkFree_of_run {s : FS} {w : World} {created : Set Loc} (h : Run s w created) :
    LinkFree w.fs := by
  induction h with
  | start errno hfree => exact hfree
  | call K op _ hrun ih => exact (Op.keeps ih hrun).linkFree

/-- The files of the history are there. -/
theorem lookup_of_run {s : FS} {w : World} {created : Set Loc} (h : Run s w created) :
    ∀ loc ∈ created, ∃ node, w.fs.lookup loc = some node := by
  induction h with
  | start errno _ => exact fun loc hloc => False.elim hloc
  | @call w w' created K op reply hbefore hrun ih =>
    rintro loc (⟨hold, hkept⟩ | hnew)
    · by_cases hask : op.Asks K w.fs loc
      · by_contra hgone
        apply hkept
        refine ⟨hask, ?_⟩
        rw [Option.eq_none_iff_forall_ne_some]
        exact fun node hnode => hgone ⟨node, hnode⟩
      · obtain ⟨node, hnode⟩ := ih loc hold
        exact (Op.keeps (linkFree_of_run hbefore) hrun).kept loc node hnode hask
    · cases op with
      | create_file path contents =>
        obtain ⟨rfl, left, hresolve⟩ := hnew
        obtain ⟨made, loc', -, hwritten⟩ := fs_create_file_eq_true hrun
        obtain ⟨left', hleads⟩ := hwritten.leads
        rw [hleads, Except.ok.injEq, Reached.object.injEq] at hresolve
        rw [← hresolve.1, hwritten.lookup, if_pos rfl]
        exact ⟨_, rfl⟩
      | _ => exact absurd hnew id

/-- Calls one after another, each with the kernel that it meets. -/
def runAll : List (Kernel × Op) → World → Outcome Empty (World × List Reply)
  | [], w => .ok (w, [])
  | (K, op) :: calls, w => do
    let (w, reply) ← op.run K w
    let (w, replies) ← runAll calls w
    .ok (w, reply :: replies)

/-- No call of the sequence does what C does not define, in the state that the
calls before it lead to. -/
def Defined : List (Kernel × Op) → World → Prop
  | [], _ => True
  | (K, op) :: calls, w =>
    ¬ op.Overruns K w ∧ ∀ w' reply, op.run K w = .ok (w', reply) → Defined calls w'

/-- The calls are a run while none of them does what C does not define. -/
theorem Run.runAll_iff {s : FS} {w : World} {created : Set Loc} (h : Run s w created)
    {calls : List (Kernel × Op)} :
    (∃ w' replies created', runAll calls w = .ok (w', replies) ∧ Run s w' created') ↔
      Defined calls w := by
  induction calls generalizing w created with
  | nil => exact iff_of_true ⟨w, [], created, rfl, h⟩ trivial
  | cons call calls ih =>
    obtain ⟨K, op⟩ := call
    have hop : (∃ w' reply, op.run K w = .ok (w', reply)) ↔ ¬ op.Overruns K w :=
      Op.run_returns_iff (linkFree_of_run h)
    constructor
    · rintro ⟨w', replies, created', hrun, hrun'⟩
      obtain ⟨⟨w₁, reply⟩, hfirst, hrest⟩ := Outcome.bind_eq_ok_iff.mp hrun
      obtain ⟨⟨w₂, replies'⟩, hcalls, heq⟩ := Outcome.bind_eq_ok_iff.mp hrest
      obtain ⟨rfl, -⟩ := Outcome.ok_prod_inj heq
      refine ⟨hop.mp ⟨w₁, reply, hfirst⟩, fun w₃ reply' hfirst' => ?_⟩
      obtain ⟨rfl, rfl⟩ := Outcome.ok_prod_inj (hfirst.symm.trans hfirst')
      exact (ih (.call K op h hfirst)).mp ⟨_, _, _, hcalls, hrun'⟩
    · rintro ⟨hdefined, hrest⟩
      obtain ⟨w₁, reply, hfirst⟩ := hop.mpr hdefined
      obtain ⟨w', replies, created', hcalls, hrun'⟩ :=
        (ih (.call K op h hfirst)).mpr (hrest w₁ reply hfirst)
      refine ⟨w', reply :: replies, created', ?_, hrun'⟩
      rw [Fs.runAll, hfirst, Outcome.ok_bind]
      dsimp only
      rw [hcalls]
      rfl

theorem bare_linkFree : LinkFree FS.bare := by
  intro loc node hnode
  simp only [FS.lookup, FS.bare, List.lookup_nil] at hnode
  by_cases hroot : loc = []
  · rw [if_pos hroot, Option.some.injEq] at hnode
    exact Or.inl hnode.symm
  · simp [hroot] at hnode

end Vklib.Fs
