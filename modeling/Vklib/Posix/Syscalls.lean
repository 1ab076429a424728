import Vklib.Base.Outcome
import Vklib.Posix.Walk

/-!
# System calls

The calls that a program makes on files and directories, as functions of the
file system.  A call may be refused for reasons that lie outside the tree, such
as permissions, quotas or lack of descriptors, and `Kernel.refuses` says which
calls on which paths are.  The kernel also decides in which order a directory is
read, how much of a text a write takes and how much of it a read delivers.

A directory is read as it was when it was opened.  POSIX leaves it open whether
an entry that is removed later is still returned, and a program that looks at
the entry finds nothing there.
-/

namespace Vklib.Posix

/-- The kinds of calls. -/
inductive Call where
  | stat | opendir | mkdir | rmdir | unlink | openRead | openWrite
  deriving DecidableEq, Repr

/-- What the tree does not determine. -/
structure Kernel where
  /-- `SYMLOOP_MAX`. -/
  loopMax : Nat
  /-- `PATH_MAX`: a path of that length is too long. -/
  pathMax : Nat
  /-- The error with which a call on a path is refused. -/
  refuses : Call → Bytes → Option Errno
  /-- How much of a text a write to a path takes. -/
  accepts : Bytes → Bytes → Nat
  /-- How much of a content a read from a path delivers. -/
  delivers : Bytes → Bytes → Nat
  /-- The order in which the directory at a path is read. -/
  order : Bytes → List Name → List Name
  order_perm : ∀ path names, (order path names).Perm names

/-- A kernel that refuses nothing, reads directories in the order of the table,
and takes and delivers every text whole. -/
def permissive : Kernel where
  loopMax := 40
  pathMax := 4096
  refuses _ _ := none
  accepts _ text := text.length
  delivers _ content := content.length
  order _ names := names
  order_perm _ _ := List.Perm.refl _

section

variable (K : Kernel) (s : FS)

/-- Where the walk along a path starts. -/
def start (path : Bytes) : Except Errno Loc :=
  if isAbsolute path then .ok []
  else
    match s.cwd with
    | some dir => .ok dir
    | none => .error .ENOENT

/-- The object of a path, through all links. -/
def resolve (path : Bytes) : Except Errno Reached :=
  if path = [] then .error .ENOENT
  else if K.pathMax ≤ path.length then .error .ENAMETOOLONG
  else (start s path).bind fun cur => walk s K.loopMax cur (steps path)

/-- The directory and the last name of a path, a link at the end not
followed. -/
def resolveParent (path : Bytes) : Except Errno (Loc × Name) :=
  if path = [] then .error .ENOENT
  else if K.pathMax ≤ path.length then .error .ENAMETOOLONG
  else
    match (names path).getLast? with
    | none => .error .EBUSY
    | some name =>
      (start s path).bind fun cur =>
        (walk s K.loopMax cur (names path).dropLast).bind fun r =>
          match r with
          | .missing _ => .error .ENOENT
          | .object dir _ =>
            if s.lookup dir = some .dir then .ok (dir, name) else .error .ENOTDIR

/-- Refuse a call or make it. -/
def attempt {α : Type} (call : Call) (path : Bytes) (run : Except Errno α) : Except Errno α :=
  match K.refuses call path with
  | some e => .error e
  | none => run

/-- `stat`. -/
def stat (path : Bytes) : Except Errno Node :=
  attempt K .stat path <|
    (resolve K s path).bind fun r =>
      match r with
      | .missing _ => .error .ENOENT
      | .object loc _ =>
        match s.lookup loc with
        | some node => .ok node
        | none => .error .ENOENT

/-- `opendir`. -/
def opendir (path : Bytes) : Except Errno Loc :=
  attempt K .opendir path <|
    (resolve K s path).bind fun r =>
      match r with
      | .missing _ => .error .ENOENT
      | .object loc _ => if s.lookup loc = some .dir then .ok loc else .error .ENOTDIR

/-- All results of `readdir` on the directory `dir`, opened at `path`. -/
def readdir (path : Bytes) (dir : Loc) : List Name :=
  K.order path (bytes "." :: bytes ".." :: s.entries dir)

/-- `mkdir`. -/
def mkdir (path : Bytes) : Except Errno FS :=
  attempt K .mkdir path <|
    (resolveParent K s path).bind fun p =>
      if p.2 = bytes "." ∨ p.2 = bytes ".." then .error .EEXIST
      else
        match s.lookup (p.2 :: p.1) with
        | some _ => .error .EEXIST
        | none => .ok (s.add p.1 p.2 .dir)

/-- `rmdir`. -/
def rmdir (path : Bytes) : Except Errno FS :=
  attempt K .rmdir path <|
    (resolveParent K s path).bind fun p =>
      if p.2 = bytes "." then .error .EINVAL
      else if p.2 = bytes ".." then .error .ENOTEMPTY
      else
        match s.lookup (p.2 :: p.1) with
        | none => .error .ENOENT
        | some .dir =>
          if s.entries (p.2 :: p.1) = [] then .ok (s.remove (p.2 :: p.1)) else .error .ENOTEMPTY
        | some _ => .error .ENOTDIR

/-- `unlink`. -/
def unlink (path : Bytes) : Except Errno FS :=
  attempt K .unlink path <|
    (resolveParent K s path).bind fun p =>
      if p.2 = bytes "." ∨ p.2 = bytes ".." then .error .EISDIR
      else
        match s.lookup (p.2 :: p.1) with
        | none => .error .ENOENT
        | some .dir => .error .EISDIR
        | some _ =>
          if endsInSlash path then .error .ENOTDIR else .ok (s.remove (p.2 :: p.1))

/-- `remove` of the C library: `unlink`, and `rmdir` for a directory. -/
def remove (path : Bytes) : Except Errno FS :=
  match unlink K s path with
  | .error .EISDIR => rmdir K s path
  | r => r

/-- The path leads to a FIFO. -/
def leadsToFifo (path : Bytes) : Bool :=
  match resolve K s path with
  | .ok (.object loc _) => s.lookup loc = some .fifo
  | .ok (.missing _) => false
  | .error _ => false

/-- A call of `fopen`.  At a FIFO it waits for somebody to open the other end,
and so it never comes back. -/
def fopen {α : Type} (call : Call) (path : Bytes) (run : Except Errno α) : Outcome Errno α :=
  if K.refuses call path = none ∧ leadsToFifo K s path then .outOfFuel
  else
    match attempt K call path run with
    | .ok a => .ok a
    | .error e => .error e

/-- `fopen` for writing: an empty file, and where it is. -/
def openWrite (path : Bytes) : Outcome Errno (FS × Loc) :=
  fopen K s .openWrite path <|
    if endsInSlash path then .error .EISDIR
    else
      (resolve K s path).bind fun r =>
        match r with
        | .missing [] => .error .ENOENT
        | .missing (name :: dir) => .ok (s.add dir name (.file []), name :: dir)
        | .object loc _ =>
          match s.lookup loc with
          | some (.file _) => .ok (s.write loc [], loc)
          | some .dir => .error .EISDIR
          | _ => .error Errno.ENXIO

/-- `fopen` for reading. -/
def openRead (path : Bytes) : Outcome Errno Node :=
  fopen K s .openRead path <|
    (resolve K s path).bind fun r =>
      match r with
      | .missing _ => .error .ENOENT
      | .object loc _ =>
        match s.lookup loc with
        | some (.file content) => .ok (.file content)
        | some .dir => .ok .dir
        | _ => .error Errno.ENXIO

end

/-! ## What a call that succeeded says -/

theorem bind_eq_ok {α β : Type} {x : Except Errno α} {f : α → Except Errno β} {b : β} :
    x.bind f = .ok b ↔ ∃ a, x = .ok a ∧ f a = .ok b := by
  cases x <;> simp [Except.bind]

theorem attempt_eq_ok {K : Kernel} {α : Type} {call : Call} {path : Bytes} {run : Except Errno α}
    {a : α} : attempt K call path run = .ok a ↔ K.refuses call path = none ∧ run = .ok a := by
  unfold attempt
  cases K.refuses call path <;> simp

/-- A call of `fopen` that comes back was made at no FIFO. -/
theorem fopen_eq_ok {K : Kernel} {s : FS} {α : Type} {call : Call} {path : Bytes}
    {run : Except Errno α} {a : α} :
    fopen K s call path run = .ok a ↔
      K.refuses call path = none ∧ run = .ok a ∧ leadsToFifo K s path = false := by
  unfold fopen
  by_cases hwaits : K.refuses call path = none ∧ leadsToFifo K s path
  · rw [if_pos hwaits]
    simp [hwaits.2]
  rw [if_neg hwaits]
  cases hcall : attempt K call path run with
  | error e =>
    refine iff_of_false (by simp) fun h => ?_
    rw [attempt_eq_ok.mpr ⟨h.1, h.2.1⟩] at hcall
    simp at hcall
  | ok a' =>
    obtain ⟨hrefuses, rfl⟩ := attempt_eq_ok.mp hcall
    simp only [hrefuses, true_and] at hwaits
    simp [hrefuses, hwaits]

/-- A call of `fopen` waits exactly at a FIFO. -/
theorem fopen_eq_outOfFuel {K : Kernel} {s : FS} {α : Type} {call : Call} {path : Bytes}
    {run : Except Errno α} :
    fopen K s call path run = .outOfFuel ↔
      K.refuses call path = none ∧ leadsToFifo K s path = true := by
  unfold fopen
  by_cases hwaits : K.refuses call path = none ∧ leadsToFifo K s path
  · simp [hwaits]
  · rw [if_neg hwaits]
    refine iff_of_false ?_ hwaits
    cases attempt K call path run with
    | error e => simp
    | ok a => simp

theorem fopen_ne_undefined {K : Kernel} {s : FS} {α : Type} {call : Call} {path : Bytes}
    {run : Except Errno α} : fopen K s call path run ≠ .undefined := by
  unfold fopen
  split
  · simp
  · cases attempt K call path run with
    | error e => simp
    | ok a => simp

/-- The walk from the start of a path along names ends at an object. -/
def Leads (K : Kernel) (s : FS) (path : Bytes) (xs : List Name) (loc : Loc) : Prop :=
  ∃ cur left, start s path = .ok cur ∧ walk s K.loopMax cur xs = .ok (.object loc left)

/-- The kernel takes a path of this length. -/
def Fits (K : Kernel) (path : Bytes) : Prop := path ≠ [] ∧ path.length < K.pathMax

theorem Leads.unique {K : Kernel} {s : FS} {path : Bytes} {xs : List Name} {loc loc' : Loc}
    (h : Leads K s path xs loc) (h' : Leads K s path xs loc') : loc = loc' := by
  obtain ⟨cur, left, hstart, hwalk⟩ := h
  obtain ⟨cur', left', hstart', hwalk'⟩ := h'
  rw [hstart, Except.ok.injEq] at hstart'
  rw [← hstart', hwalk] at hwalk'
  simp only [Except.ok.injEq, Reached.object.injEq] at hwalk'
  exact hwalk'.1

theorem resolve_eq_ok {K : Kernel} {s : FS} {path : Bytes} {r : Reached} :
    resolve K s path = .ok r ↔
      Fits K path ∧ ∃ cur, start s path = .ok cur ∧ walk s K.loopMax cur (steps path) = .ok r := by
  unfold resolve Fits
  by_cases hempty : path = []
  · simp [hempty]
  by_cases hlong : K.pathMax ≤ path.length
  · simp [hempty, hlong, Nat.not_lt.mpr hlong]
  · simp [hempty, hlong, Nat.not_le.mp hlong, bind_eq_ok]

theorem resolve_eq_object {K : Kernel} {s : FS} {path : Bytes} {loc : Loc} :
    (∃ left, resolve K s path = .ok (.object loc left)) ↔
      Fits K path ∧ Leads K s path (steps path) loc := by
  simp only [resolve_eq_ok, Leads]
  constructor
  · rintro ⟨left, hfits, cur, hstart, hwalk⟩
    exact ⟨hfits, cur, left, hstart, hwalk⟩
  · rintro ⟨hfits, cur, left, hstart, hwalk⟩
    exact ⟨left, hfits, cur, hstart, hwalk⟩

/-- A slash at the end of a path leads on from directories only. -/
theorem leads_steps {K : Kernel} {s : FS} {path : Bytes} {loc : Loc} :
    Leads K s path (steps path) loc ↔
      Leads K s path (names path) loc ∧ (endsInSlash path = true → s.lookup loc = some .dir) := by
  unfold Leads steps
  by_cases hslash : endsInSlash path = true
  · simp only [hslash, if_true, walk_append, bind_eq_ok, true_implies]
    constructor
    · rintro ⟨cur, left, hstart, r, hwalk, hgo⟩
      cases r with
      | missing loc' => simp [Reached.continue] at hgo
      | object loc' left' =>
        have hdir := lookup_of_walk hgo
        simp only [Reached.continue, walk_cons hdir, if_true, walk_nil, Except.ok.injEq,
          Reached.object.injEq] at hgo
        rw [← hgo.1]
        exact ⟨⟨cur, left', hstart, hwalk⟩, hdir⟩
    · rintro ⟨⟨cur, left, hstart, hwalk⟩, hdir⟩
      refine ⟨cur, left, hstart, _, hwalk, ?_⟩
      simp [Reached.continue, walk_cons hdir]
  · simp [hslash]

theorem stat_eq_ok {K : Kernel} {s : FS} {path : Bytes} {node : Node} :
    stat K s path = .ok node ↔
      K.refuses .stat path = none ∧ Fits K path ∧
        ∃ loc, Leads K s path (steps path) loc ∧ s.lookup loc = some node := by
  unfold stat
  rw [attempt_eq_ok, bind_eq_ok]
  constructor
  · rintro ⟨hrefuses, r, hresolve, hr⟩
    cases r with
    | missing loc => simp at hr
    | object loc left =>
      obtain ⟨hfits, hleads⟩ := resolve_eq_object.mp ⟨left, hresolve⟩
      refine ⟨hrefuses, hfits, loc, hleads, ?_⟩
      cases hnode : s.lookup loc with
      | none => simp [hnode] at hr
      | some node' => simpa [hnode] using hr
  · rintro ⟨hrefuses, hfits, loc, hleads, hnode⟩
    obtain ⟨left, hresolve⟩ := resolve_eq_object.mpr ⟨hfits, hleads⟩
    exact ⟨hrefuses, _, hresolve, by simp [hnode]⟩

theorem opendir_eq_ok {K : Kernel} {s : FS} {path : Bytes} {dir : Loc} :
    opendir K s path = .ok dir ↔
      K.refuses .opendir path = none ∧ Fits K path ∧ Leads K s path (names path) dir ∧
        s.lookup dir = some .dir := by
  unfold opendir
  rw [attempt_eq_ok, bind_eq_ok]
  constructor
  · rintro ⟨hrefuses, r, hresolve, hr⟩
    cases r with
    | missing loc => simp at hr
    | object loc left =>
      obtain ⟨hfits, hleads⟩ := resolve_eq_object.mp ⟨left, hresolve⟩
      by_cases hdir : s.lookup loc = some .dir
      · simp only [hdir, if_true, Except.ok.injEq] at hr
        subst hr
        exact ⟨hrefuses, hfits, (leads_steps.mp hleads).1, hdir⟩
      · simp [hdir] at hr
  · rintro ⟨hrefuses, hfits, hleads, hdir⟩
    obtain ⟨left, hresolve⟩ := resolve_eq_object.mpr ⟨hfits, leads_steps.mpr ⟨hleads, fun _ => hdir⟩⟩
    exact ⟨hrefuses, _, hresolve, by simp [hdir]⟩

theorem resolveParent_eq_ok {K : Kernel} {s : FS} {path : Bytes} {dir : Loc} {name : Name} :
    resolveParent K s path = .ok (dir, name) ↔
      Fits K path ∧ ∃ xs, names path = xs ++ [name] ∧ Leads K s path xs dir ∧
        s.lookup dir = some .dir := by
  unfold resolveParent Fits Leads
  by_cases hempty : path = []
  · simp [hempty]
  by_cases hlong : K.pathMax ≤ path.length
  · simp [hempty, hlong, Nat.not_lt.mpr hlong]
  simp only [hempty, hlong, if_false, not_false_eq_true, ne_eq, true_and, Nat.not_le.mp hlong]
  rcases List.eq_nil_or_concat (names path) with hnil | ⟨xs, last, hxs⟩
  · simp [hnil]
  · rw [List.concat_eq_append] at hxs
    simp only [hxs, List.getLast?_concat, List.dropLast_concat, bind_eq_ok]
    constructor
    · rintro ⟨cur, hstart, r, hwalk, hr⟩
      cases r with
      | missing loc => simp at hr
      | object loc left =>
        by_cases hdir : s.lookup loc = some .dir
        · simp only [hdir, if_true, Except.ok.injEq, Prod.mk.injEq] at hr
          rw [← hr.1, ← hr.2]
          exact ⟨xs, rfl, ⟨cur, left, hstart, hwalk⟩, hdir⟩
        · simp [hdir] at hr
    · rintro ⟨xs', heq, ⟨cur, left, hstart, hwalk⟩, hdir⟩
      obtain ⟨rfl, hname⟩ := List.append_inj' heq rfl
      simp only [List.cons.injEq, and_true] at hname
      exact ⟨cur, hstart, _, hwalk, by simp [hdir, hname]⟩

theorem mkdir_eq_ok {K : Kernel} {s s' : FS} {path : Bytes} (h : mkdir K s path = .ok s') :
    ∃ dir name, s' = s.add dir name .dir := by
  obtain ⟨-, hmake⟩ := attempt_eq_ok.mp h
  obtain ⟨p, -, hadd⟩ := bind_eq_ok.mp hmake
  split at hadd
  · simp at hadd
  · split at hadd
    · simp at hadd
    · exact ⟨p.1, p.2, (Except.ok.inj hadd).symm⟩

theorem rmdir_eq_ok {K : Kernel} {s s' : FS} {path : Bytes} :
    rmdir K s path = .ok s' ↔
      K.refuses .rmdir path = none ∧ ∃ dir name, resolveParent K s path = .ok (dir, name) ∧
        name ≠ bytes "." ∧ name ≠ bytes ".." ∧ s.lookup (name :: dir) = some .dir ∧
          s.entries (name :: dir) = [] ∧ s' = s.remove (name :: dir) := by
  unfold rmdir
  rw [attempt_eq_ok, bind_eq_ok]
  apply and_congr_right
  intro
  constructor
  · rintro ⟨⟨dir, name⟩, hparent, hr⟩
    refine ⟨dir, name, hparent, ?_⟩
    by_cases hdot : name = bytes "."
    · simp [hdot] at hr
    by_cases hdots : name = bytes ".."
    · simp only [hdots, if_true] at hr
      split at hr <;> simp at hr
    simp only [if_neg hdot, if_neg hdots] at hr
    cases hnode : s.lookup (name :: dir) with
    | none => simp [hnode] at hr
    | some node =>
      cases node with
      | dir =>
        simp only [hnode] at hr
        by_cases hentries : s.entries (name :: dir) = []
        · simp only [hentries, if_true, Except.ok.injEq] at hr
          exact ⟨hdot, hdots, rfl, hentries, hr.symm⟩
        · simp [hentries] at hr
      | _ => simp [hnode] at hr
  · rintro ⟨dir, name, hparent, hdot, hdots, hnode, hentries, rfl⟩
    exact ⟨_, hparent, by simp [hdot, hdots, hnode, hentries]⟩

theorem unlink_eq_ok {K : Kernel} {s s' : FS} {path : Bytes} :
    unlink K s path = .ok s' ↔
      K.refuses .unlink path = none ∧ endsInSlash path = false ∧
        ∃ dir name node, resolveParent K s path = .ok (dir, name) ∧
          name ≠ bytes "." ∧ name ≠ bytes ".." ∧ s.lookup (name :: dir) = some node ∧
            node ≠ .dir ∧ s' = s.remove (name :: dir) := by
  unfold unlink
  rw [attempt_eq_ok, bind_eq_ok]
  apply and_congr_right
  intro
  constructor
  · rintro ⟨⟨dir, name⟩, hparent, hr⟩
    by_cases hdot : name = bytes "." ∨ name = bytes ".."
    · simp [hdot] at hr
    simp only [if_neg hdot] at hr
    cases hnode : s.lookup (name :: dir) with
    | none => simp [hnode] at hr
    | some node =>
      cases node with
      | dir => simp [hnode] at hr
      | _ =>
        simp only [hnode] at hr
        by_cases hslash : endsInSlash path = true
        · simp [hslash] at hr
        · simp only [hslash, Bool.false_eq_true, if_false, Except.ok.injEq] at hr
          exact ⟨by simpa using hslash, dir, name, _, hparent, fun h => hdot (Or.inl h),
            fun h => hdot (Or.inr h), hnode, by simp, hr.symm⟩
  · rintro ⟨hslash, dir, name, node, hparent, hdot, hdots, hnode, hdir, rfl⟩
    refine ⟨_, hparent, ?_⟩
    simp only [hdot, hdots, or_self, if_false, hnode, hslash]
    cases node with
    | dir => exact absurd rfl hdir
    | _ => rfl

/-! ## Calls after something was taken away -/

/-- The first file system is what is left of the second. -/
structure LeftOf (s' s : FS) : Prop where
  part : PartOf s' s
  cwd : s'.cwd = s.cwd ∨ s'.cwd = none

theorem LeftOf.refl (s : FS) : LeftOf s s := ⟨fun _ => Or.inr rfl, Or.inl rfl⟩

theorem LeftOf.trans {s₁ s₂ s₃ : FS} (h : LeftOf s₁ s₂) (h' : LeftOf s₂ s₃) : LeftOf s₁ s₃ where
  part := by
    intro loc
    rcases h.part loc with hnone | heq
    · exact Or.inl hnone
    · rw [heq]
      exact h'.part loc
  cwd := by
    rcases h.cwd with heq | hnone
    · rw [heq]
      exact h'.cwd
    · exact Or.inr hnone

theorem leftOf_remove (s : FS) {loc : Loc} (hloc : loc ≠ []) : LeftOf (s.remove loc) s where
  part := by
    intro l
    rw [s.lookup_remove hloc]
    by_cases hbelow : loc <:+ l
    · exact Or.inl (if_pos hbelow)
    · exact Or.inr (if_neg hbelow)
  cwd := by
    show s.cwd.filter _ = s.cwd ∨ s.cwd.filter _ = none
    cases s.cwd with
    | none => exact Or.inl rfl
    | some dir =>
      by_cases hbelow : loc <:+ dir
      · exact Or.inr (by simp [hbelow])
      · exact Or.inl (by simp [hbelow])

section

variable {K : Kernel} {s s' : FS} {path : Bytes}

theorem start_mono (hleft : LeftOf s' s) {cur : Loc} (h : start s' path = .ok cur) :
    start s path = .ok cur := by
  unfold start at h ⊢
  by_cases habs : isAbsolute path = true
  · simpa [habs] using h
  · simp only [habs, Bool.false_eq_true, if_false] at h ⊢
    rcases hleft.cwd with heq | hnone
    · rw [← heq]
      exact h
    · simp [hnone] at h

theorem Leads.mono (hleft : LeftOf s' s) {xs : List Name} {loc : Loc}
    (h : Leads K s' path xs loc) : Leads K s path xs loc := by
  obtain ⟨cur, left, hstart, hwalk⟩ := h
  exact ⟨cur, left, start_mono hleft hstart, walk_mono hleft.part hwalk⟩

theorem opendir_mono (hleft : LeftOf s' s) {dir : Loc} (h : opendir K s' path = .ok dir) :
    opendir K s path = .ok dir := by
  rw [opendir_eq_ok] at h ⊢
  exact ⟨h.1, h.2.1, h.2.2.1.mono hleft, hleft.part.lookup h.2.2.2⟩

theorem stat_mono (hleft : LeftOf s' s) {node : Node} (h : stat K s' path = .ok node) :
    stat K s path = .ok node := by
  rw [stat_eq_ok] at h ⊢
  obtain ⟨hrefuses, hfits, loc, hleads, hnode⟩ := h
  exact ⟨hrefuses, hfits, loc, hleads.mono hleft, hleft.part.lookup hnode⟩

theorem resolveParent_mono (hleft : LeftOf s' s) {dir : Loc} {name : Name}
    (h : resolveParent K s' path = .ok (dir, name)) : resolveParent K s path = .ok (dir, name) := by
  rw [resolveParent_eq_ok] at h ⊢
  obtain ⟨hfits, xs, hxs, hleads, hdir⟩ := h
  exact ⟨hfits, xs, hxs, hleads.mono hleft, hleft.part.lookup hdir⟩

theorem entries_mono (hleft : LeftOf s' s) {dir : Loc} {name : Name}
    (h : name ∈ s'.entries dir) : name ∈ s.entries dir := by
  obtain ⟨node, hnode⟩ := FS.mem_entries.mp h
  exact FS.mem_entries.mpr ⟨node, hleft.part.lookup hnode⟩

/-! ## Paths of entries -/

theorem start_append (hpath : path ≠ []) (tail : Bytes) : start s (path ++ tail) = start s path := by
  cases path with
  | nil => exact absurd rfl hpath
  | cons c rest => rfl

/-- A walk along more names goes on from the end of a walk along the first of
them. -/
theorem leads_append {xs ys : List Name} {loc : Loc} :
    Leads K s path (xs ++ ys) loc ↔
      ∃ cur mid budget, start s path = .ok cur ∧
        walk s K.loopMax cur xs = .ok (.object mid budget) ∧
          ∃ left, walk s budget mid ys = .ok (.object loc left) := by
  unfold Leads
  simp only [walk_append, bind_eq_ok]
  constructor
  · rintro ⟨cur, left, hstart, r, hxs, hys⟩
    cases r with
    | missing mid =>
      by_cases hnil : ys = []
      · simp [Reached.continue, hnil] at hys
      · simp [Reached.continue, hnil] at hys
    | object mid budget => exact ⟨cur, mid, budget, hstart, hxs, left, hys⟩
  · rintro ⟨cur, mid, budget, hstart, hxs, left, hys⟩
    exact ⟨cur, left, hstart, _, hxs, hys⟩

/-- The parent of an entry's path is the directory that the path before the
name leads to. -/
theorem resolveParent_entry {name : Name} (hname : IsName name) (hpath : path ≠ []) {dir : Loc}
    {last : Name} :
    resolveParent K s (path ++ 47 :: name) = .ok (dir, last) ↔
      Fits K (path ++ 47 :: name) ∧ last = name ∧ Leads K s path (names path) dir ∧
        s.lookup dir = some .dir := by
  rw [resolveParent_eq_ok, names_append hname]
  unfold Leads
  simp only [start_append hpath]
  constructor
  · rintro ⟨hfits, xs, hxs, hleads, hdir⟩
    obtain ⟨rfl, hlast⟩ := List.append_inj' hxs rfl
    simp only [List.cons.injEq, and_true] at hlast
    exact ⟨hfits, hlast.symm, hleads, hdir⟩
  · rintro ⟨hfits, rfl, hleads, hdir⟩
    exact ⟨hfits, names path, rfl, hleads, hdir⟩

/-- The path of an entry that is not a link leads to the entry. -/
theorem leads_entry {name : Name} (hname : IsName name) (hpath : path ≠ []) {dir : Loc}
    (hleads : Leads K s path (names path) dir) {node : Node}
    (hnode : s.lookup (name :: dir) = some node) (hlink : ∀ target, node ≠ .link target) :
    Leads K s (path ++ 47 :: name) (names (path ++ 47 :: name)) (name :: dir) := by
  obtain ⟨cur, budget, hstart, hwalk⟩ := hleads
  rw [names_append hname, leads_append, start_append hpath]
  refine ⟨cur, dir, budget, hstart, hwalk, budget, ?_⟩
  rw [walk_cons (FS.lookup_parent hnode), if_neg hname.2.2.2.1, if_neg hname.2.2.2.2, hnode]
  cases node with
  | link target => exact absurd rfl (hlink target)
  | _ => exact walk_nil s budget _

theorem steps_entry {name : Name} (hname : IsName name) :
    steps (path ++ 47 :: name) = names (path ++ 47 :: name) := by
  rw [steps_append hname, names_append hname]

/-- What opens and what `stat` finds under the name of a directory is that
directory. -/
theorem stat_entry_of_dir {name : Name} (hname : IsName name) (hpath : path ≠ []) {dir : Loc}
    (hleads : Leads K s path (names path) dir) (hnode : s.lookup (name :: dir) = some .dir)
    {node : Node} (hstat : stat K s (path ++ 47 :: name) = .ok node) : node = .dir := by
  obtain ⟨-, -, loc, hloc, hnode'⟩ := stat_eq_ok.mp hstat
  rw [steps_entry hname] at hloc
  have heq := hloc.unique (leads_entry hname hpath hleads hnode (by simp))
  rw [heq, hnode] at hnode'
  exact (Option.some.inj hnode').symm

theorem opendir_entry_of_dir {name : Name} (hname : IsName name) (hpath : path ≠ []) {dir : Loc}
    (hleads : Leads K s path (names path) dir) (hnode : s.lookup (name :: dir) = some .dir)
    {loc : Loc} (hopen : opendir K s (path ++ 47 :: name) = .ok loc) : loc = name :: dir := by
  have hloc := (opendir_eq_ok.mp hopen).2.2.1
  exact hloc.unique (leads_entry hname hpath hleads hnode (by simp))

end

/-! ## Files that are written -/

/-- `fopen` for writing finds a file, or the free place of one. -/
theorem openWrite_eq_ok {K : Kernel} {s s' : FS} {path : Bytes} {loc : Loc}
    (h : openWrite K s path = .ok (s', loc)) :
    endsInSlash path = false ∧ ∃ r, resolve K s path = .ok r ∧
      ((∃ name dir, loc = name :: dir ∧ r = .missing loc ∧ s' = s.add dir name (.file [])) ∨
        ∃ left old, r = .object loc left ∧ s.lookup loc = some (.file old) ∧ s' = s.write loc []) := by
  obtain ⟨-, hopen, -⟩ := fopen_eq_ok.mp h
  by_cases hslash : endsInSlash path = true
  · simp [hslash] at hopen
  rw [if_neg hslash] at hopen
  obtain ⟨r, hresolve, hr⟩ := bind_eq_ok.mp hopen
  refine ⟨by simpa using hslash, r, hresolve, ?_⟩
  cases r with
  | missing place =>
    cases place with
    | nil => simp at hr
    | cons name dir =>
      simp only [Except.ok.injEq, Prod.mk.injEq] at hr
      obtain ⟨rfl, rfl⟩ := hr
      exact Or.inl ⟨name, dir, rfl, rfl, rfl⟩
  | object place left =>
    simp only at hr
    split at hr
    next old hfile =>
      simp only [Except.ok.injEq, Prod.mk.injEq] at hr
      obtain ⟨rfl, rfl⟩ := hr
      exact Or.inr ⟨left, old, rfl, hfile, rfl⟩
    next => simp at hr
    next => simp at hr

/-- `fopen` for writing and a write leave a file with the text at the end of the
path, and everything else as it was. -/
structure Written (K : Kernel) (path : Bytes) (loc : Loc) (text : Bytes) (s s' : FS) : Prop where
  lookup : ∀ l, s'.lookup l = if l = loc then some (.file text) else s.lookup l
  cwd : s'.cwd = s.cwd
  before : ∀ node, s.lookup loc = some node → ∃ old, node = .file old
  parent : s.lookup loc.tail = some .dir
  leads : ∃ left, resolve K s' path = .ok (.object loc left)

theorem written_of_openWrite {K : Kernel} {s s' : FS} {path : Bytes} (hpath : NulFree path)
    {loc : Loc} (h : openWrite K s path = .ok (s', loc)) (text : Bytes) :
    Written K path loc text s (s'.write loc text) := by
  obtain ⟨-, r, hresolve, hr⟩ := openWrite_eq_ok h
  obtain ⟨hfits, cur, hstart, hwalk⟩ := resolve_eq_ok.mp hresolve
  have hplace : s.lookup loc.tail = some .dir ∧
      (∀ node, s.lookup loc = some node → ∃ old, node = .file old) ∧ s'.cwd = s.cwd ∧
      ∀ l, (s'.write loc text).lookup l = if l = loc then some (.file text) else s.lookup l := by
    rcases hr with ⟨name, dir, rfl, rfl, rfl⟩ | ⟨left, old, rfl, hfile, rfl⟩
    · obtain ⟨name', dir', heq, hname, hdir, hfree⟩ :=
        walk_missing (fun x hx => isName_of_mem_steps hpath hx) hwalk
      obtain ⟨rfl, rfl⟩ := List.cons.inj heq
      refine ⟨hdir, by simp [hfree], by simp, fun l => ?_⟩
      have hadd := FS.lookup_add hname hdir hfree (.file [])
      rw [FS.lookup_write _ (by rw [hadd, if_pos rfl]), hadd]
      by_cases hl : l = name :: dir
      · simp [hl]
      · simp [hl]
    · refine ⟨?_, ?_, rfl, fun l => ?_⟩
      · cases loc with
        | nil => simp at hfile
        | cons name dir => exact FS.lookup_parent hfile
      · intro node hnode
        exact ⟨old, Option.some.inj (hnode.symm.trans hfile)⟩
      · have hwrite := FS.lookup_write s hfile []
        rw [FS.lookup_write _ (by rw [hwrite, if_pos rfl]), hwrite]
        by_cases hl : l = loc
        · simp [hl]
        · simp [hl]
  obtain ⟨hparent, hbefore, hcwd, hlookup⟩ := hplace
  refine ⟨hlookup, hcwd, hbefore, hparent, ?_⟩
  have hdiff : DiffersAt loc s (s'.write loc text) := by
    refine ⟨fun l hl => by rw [hlookup, if_neg hl], ?_, .file text, ?_, by simp, by simp⟩
    · intro node hnode
      obtain ⟨old, rfl⟩ := hbefore node hnode
      simp
    · rw [hlookup, if_pos rfl]
  have hend : r = .missing loc ∨ ∃ left, r = .object loc left := by
    rcases hr with ⟨name, dir, -, hmissing, -⟩ | ⟨left, old, hobject, -, -⟩
    · exact Or.inl hmissing
    · exact Or.inr ⟨left, hobject⟩
  obtain ⟨left, hwalk'⟩ := walk_of_differsAt hdiff hend hwalk
  have hstart' : start (s'.write loc text) path = .ok cur := by
    unfold start at hstart ⊢
    rw [FS.cwd_write, hcwd]
    exact hstart
  exact ⟨left, resolve_eq_ok.mpr ⟨hfits, cur, hstart', hwalk'⟩⟩

end Vklib.Posix
