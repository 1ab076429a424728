import Vklib.Handle.Invariant

/-!
# Which objects are destroyed twice

A finaliser destroys the object of its receiver, which is its first argument,
and takes the metatable of its last one.  The collector passes only the
receiver.  A script that calls `__gc` with a further argument destroys an object
whose handle keeps its metatable, and the collector will destroy it once more.
`single_destruction_iff` says that this is the only way to destroy an object
twice.

A zombie is such a handle.  No later call brings the object back: the only way
to take its metatable without destroying it again is a call that makes another
zombie, so `Live`, which says that there are none, is kept backwards too
(`happen_live_iff`).
-/

namespace Vklib.Handle

open Vklib.Lua

/-! ## The property and its condition -/

/-- After the script the collector finalises all userdata in any order.  Then no
object has been destroyed twice, and no collection of a GridFS object at all. -/
def SingleDestruction (events : List Event) : Prop :=
  ∃ p, run events initial = .ok p ∧
    ∀ order : List Udata, order.Perm (List.range p.world.objects.length) →
      ∃ q, run (order.map .collect) p = .ok q ∧ q.world.host.destroyed.Nodup ∧
        ∀ obj ∈ q.world.host.destroyed, isReference obj = false

/-- A call of a finaliser that accepts its receiver, which is no reference, gets
the receiver as its last argument as well. -/
def Tidy (p : Process) : Event → Prop
  | .gc name args => ∀ (u : Udata) (o : Userdata), args.head? = some (handle u) →
      p.world.objects[u]? = some o → o.metatable = some name → isReference o.payload = false →
        args.getLast? = some (handle u)
  | _ => True

/-- All events of a run are tidy. -/
def TidyRun (events : List Event) (p : Process) : Prop :=
  ∀ before event after, events = before ++ event :: after →
    ∀ q, run before p = .ok q → Tidy q event

/-! ## Zombies -/

/-- A handle with its metatable whose object was destroyed. -/
def Zombie (L : State) (z : Udata) : Prop :=
  ∃ o : Userdata, L.objects[z]? = some o ∧ o.metatable ≠ none ∧ isReference o.payload = false ∧
    o.payload ∈ L.host.destroyed

/-- No object was destroyed twice, and none will be. -/
structure Live (L : State) : Prop where
  once : L.host.destroyed.Nodup
  noZombie : ∀ z, ¬ Zombie L z

section

variable {L L' : State} {p p' : Process} {event : Event} {z u : Udata} {o : Userdata} {v : Value}

theorem objects_host_of_unload_eq (heq : unload L' = unload L) :
    L'.objects = L.objects ∧ L'.host = L.host := by
  simp only [unload, LState.mk.injEq, true_and] at heq
  exact heq.2

theorem host_cleared_destroy (L : State) (obj : Native) (v : Value) :
    (cleared (destroy L obj) v).host.destroyed = L.host.destroyed ++ [obj] := by
  rw [host_cleared]
  rfl

/-- What was destroyed stays destroyed. -/
theorem destroyed_grows (h : Changes p event L') :
    p.world.host.destroyed <+: L'.host.destroyed := by
  cases h with
  | growth h =>
    obtain ⟨bs, ts, os, ds, rs, heq, -⟩ := h
    rw [(unload_eq_grown heq).2.2]
    exact List.prefix_append _ _
  | @destroyed u o name v hevent ho hname href heq =>
    rw [(objects_host_of_unload_eq heq).2, host_cleared_destroy]
    exact List.prefix_append _ _

theorem zombie_of_growth (hgrowth : Growth L L') (hz : Zombie L z) : Zombie L' z := by
  obtain ⟨bs, ts, os, ds, rs, heq, -⟩ := hgrowth
  obtain ⟨-, hobjects, hhost⟩ := unload_eq_grown heq
  obtain ⟨o, ho, hmetatable, href, hmem⟩ := hz
  refine ⟨o, ?_, hmetatable, href, ?_⟩
  · rw [hobjects, List.getElem?_append_left (List.getElem?_eq_some_iff.mp ho).1, ho]
  · rw [hhost]
    exact List.mem_append_left _ hmem

/-- A handle whose object is destroyed and that keeps its metatable. -/
theorem zombie_of_destroyed {obj : Native} (ho : L.objects[z]? = some o)
    (hmetatable : o.metatable ≠ none) (href : isReference o.payload = false)
    (hmem : o.payload ∈ L.host.destroyed ++ [obj]) (hv : v ≠ handle z)
    (heq : unload L' = unload (cleared (destroy L obj) v)) : Zombie L' z := by
  obtain ⟨hobjects, hhost⟩ := objects_host_of_unload_eq heq
  refine ⟨o, ?_, hmetatable, href, ?_⟩
  · rw [hobjects, objects_cleared]
    show (L.objects[z]?).map _ = some o
    rw [ho, Option.map_some, if_neg hv]
  · rw [hhost, host_cleared_destroy]
    exact hmem

/-- A zombie that stays out of an event remains one. -/
theorem zombie_of_changes (h : Changes p event L') (hz : Zombie p.world z)
    (hevent : ∀ u name, ¬ Finalised event u name (handle z)) : Zombie L' z := by
  cases h with
  | growth h => exact zombie_of_growth h hz
  | @destroyed u o name v hfinalised ho hname href heq =>
    obtain ⟨o', ho', hmetatable', href', hmem⟩ := hz
    apply zombie_of_destroyed ho' hmetatable' href' (List.mem_append_left _ hmem) _ heq
    intro hv
    exact hevent u name (hv ▸ hfinalised)

/-! ## Live states -/

/-- A new userdata is no zombie. -/
theorem alive_of_added {bs : List Birth} {ts : List (Table (Opaque TypeName))} {ds : List Native}
    {rs : List Udata} (hadded : Added L bs ds ts rs o) (hmetatable : o.metatable ≠ none) :
    o.payload ∉ ds := by
  cases hadded with
  | bson hbirth hnew =>
    rcases hnew with hnone | ⟨-, hmem⟩
    · exact absurd hnone hmetatable
    · exact hmem
  | root hbirth hname hds => simp [hds]
  | inherit hbirth hname hp hparent hds => simp [hds]
  | gridfs hbirth hp hparent hds => simp [hds]
  | reference hobj hp hparent hds => simp [hds]

theorem live_of_growth (hs : Sound L) (hgrowth : Growth L L') (hlive : Live L) : Live L' := by
  have hs' := sound_of_growth hs hgrowth
  obtain ⟨bs, ts, os, ds, rs, heq, hnodup, hds, hos⟩ := hgrowth
  obtain ⟨-, hobjects, hhost⟩ := unload_eq_grown heq
  have hfresh : ∀ d ∈ ds, ∀ id < L.host.births.length, d ≠ .own id := by
    intro d hd id hid hown
    obtain ⟨i, -, rfl⟩ := hds d hd
    rw [Native.own.injEq] at hown
    omega
  refine ⟨?_, fun z hz => ?_⟩
  · rw [hhost]
    refine List.nodup_append.mpr ⟨hlive.once, hnodup, fun d hd d' hd' => ?_⟩
    obtain ⟨id, hid, rfl⟩ := hs.destroyed d hd
    exact (hfresh d' hd' id hid).symm
  · obtain ⟨o, ho, hmetatable, href, hmem⟩ := hz
    rw [hhost] at hmem
    have hold (ho : L.objects[z]? = some o) : False := by
      rcases List.mem_append.mp hmem with hmem | hmem
      · exact hlive.noZombie z ⟨o, ho, hmetatable, href, hmem⟩
      · obtain ⟨id, hid, hown⟩ := (hs.linked z o ho).own_lt href
        exact hfresh _ hmem id hid hown
    rcases hos with ⟨rfl, -, -⟩ | ⟨o', rfl, hadded⟩
    · rw [hobjects, List.append_nil] at ho
      exact hold ho
    rw [hobjects] at ho
    rcases getElem?_concat_eq_some.mp ho with ho | ⟨-, rfl⟩
    · exact hold ho
    rcases List.mem_append.mp hmem with hmem | hmem
    · obtain ⟨i, hi⟩ := (added_facts hadded).1 href
      obtain ⟨id, hid, hown⟩ := hs.destroyed _ hmem
      rw [hown, Native.own.injEq] at hi
      omega
    · exact alive_of_added hadded hmetatable hmem

/-- A finaliser that takes the metatable of its receiver. -/
theorem live_of_destroyed (hs : Sound L) (hlive : Live L) (ho : L.objects[u]? = some o)
    (hmetatable : o.metatable ≠ none) (href : isReference o.payload = false)
    (heq : unload L' = unload (cleared (destroy L o.payload) (handle u))) : Live L' := by
  obtain ⟨hobjects, hhost⟩ := objects_host_of_unload_eq heq
  have halive : o.payload ∉ L.host.destroyed :=
    fun hmem => hlive.noZombie u ⟨o, ho, hmetatable, href, hmem⟩
  refine ⟨?_, fun z hz => ?_⟩
  · rw [hhost, host_cleared_destroy]
    apply List.nodup_append.mpr ⟨hlive.once, List.nodup_singleton _, fun d hd d' hd' => ?_⟩
    rw [List.mem_singleton.mp hd']
    exact fun heq => halive (heq ▸ hd)
  · obtain ⟨o', ho', hmetatable', href', hmem⟩ := hz
    rw [hhost, host_cleared_destroy] at hmem
    rw [hobjects, objects_cleared] at ho'
    obtain ⟨o₁, ho₁, rfl⟩ := Option.map_eq_some_iff.mp ho'
    by_cases hu : handle u = handle z
    · rw [if_pos hu] at hmetatable'
      exact hmetatable' rfl
    rw [if_neg hu] at hmetatable' href' hmem
    rcases List.mem_append.mp hmem with hmem | hmem
    · exact hlive.noZombie z ⟨o₁, ho₁, hmetatable', href', hmem⟩
    · have hsame := hs.distinct z u o₁ o ho₁ ho (List.mem_singleton.mp hmem) href'
      exact hu (by rw [hsame])

/-! ## Steps and runs -/

/-- An object that was destroyed twice, or will be, remains so. -/
theorem live_of_changes (h : Changes p event L') (hlive : Live L') : Live p.world := by
  refine ⟨hlive.once.sublist (destroyed_grows h).sublist, fun z hz => ?_⟩
  cases h with
  | growth h => exact hlive.noZombie z (zombie_of_growth h hz)
  | @destroyed u o name v hevent ho hname href heq =>
    obtain ⟨o', ho', hmetatable', href', hmem⟩ := hz
    have hmetatable : o.metatable ≠ none := by simp [hname]
    by_cases hv : v = handle z
    · by_cases hzu : z = u
      · -- the zombie itself is destroyed again
        subst hzu
        have hsame : o' = o := by
          rw [ho, Option.some.injEq] at ho'
          exact ho'.symm
        have honce := hlive.once
        rw [(objects_host_of_unload_eq heq).2, host_cleared_destroy] at honce
        exact (List.nodup_append.mp honce).2.2 _ (hsame ▸ hmem) _ (List.mem_singleton_self _) rfl
      · -- another receiver becomes a zombie
        refine hlive.noZombie u (zombie_of_destroyed ho hmetatable href ?_ ?_ heq)
        · exact List.mem_append_right _ (List.mem_singleton_self _)
        · rw [hv]
          intro hhandle
          simp only [Val.host.injEq, Opaque.udata.injEq] at hhandle
          exact hzu hhandle
    · exact hlive.noZombie z (zombie_of_destroyed ho' hmetatable' href'
        (List.mem_append_left _ hmem) hv heq)

/-- A call that is not tidy makes a zombie. -/
theorem tidy_of_live (hp : Invariant p) (hstep : happen p event = .ok p')
    (hlive : Live p'.world) : Tidy p event := by
  cases event with
  | gc name args =>
    intro u o hfirst ho hname href
    obtain ⟨v, hlast⟩ : ∃ v, args.getLast? = some v := by
      cases args with
      | nil => simp at hfirst
      | cons a args => exact ⟨_, List.getLast?_cons⟩
    rw [hlast, Option.some.injEq]
    by_contra hv
    obtain ⟨p'', hfinalizer, heq⟩ := finalizer_eq hp hfirst hlast ho hname href
    have hsame : p'' = p' := by
      have hstep' : finalizer p name args = .ok p' := hstep
      rw [hfinalizer, Outcome.ok.injEq] at hstep'
      exact hstep'
    subst hsame
    have hmem : o.payload ∈ p.world.host.destroyed ++ [o.payload] :=
      List.mem_append_right _ (List.mem_singleton_self _)
    exact hlive.noZombie u (zombie_of_destroyed ho (by simp [hname]) href hmem hv heq)
  | _ => trivial

/-- The step lemma: a state is live after an event exactly when it was before,
and the event is tidy. -/
theorem happen_live_iff (hp : Invariant p) (hstep : happen p event = .ok p') :
    Live p'.world ↔ Live p.world ∧ Tidy p event := by
  obtain ⟨p'', hstep', -, hchanges⟩ := happen_changes hp event
  have hsame : p'' = p' := by
    rw [hstep, Outcome.ok.injEq] at hstep'
    exact hstep'.symm
  subst hsame
  constructor
  · intro hlive
    exact ⟨live_of_changes hchanges hlive, tidy_of_live hp hstep hlive⟩
  · intro h
    obtain ⟨hlive, htidy⟩ := h
    cases hchanges with
    | growth h => exact live_of_growth hp.sound h hlive
    | @destroyed u o name v hevent ho hname href heq =>
      have hv : v = handle u := by
        cases hevent with
        | gc hfirst hlast =>
          have := htidy u o hfirst ho hname href
          rw [hlast, Option.some.injEq] at this
          exact this
        | collect => rfl
      exact live_of_destroyed hp.sound hlive ho (by simp [hname]) href (hv ▸ heq)

theorem tidyRun_cons (hstep : happen p event = .ok p') (events : List Event) :
    TidyRun (event :: events) p ↔ Tidy p event ∧ TidyRun events p' := by
  constructor
  · intro h
    refine ⟨h [] event events rfl p rfl, fun before event' after heq q hrun => ?_⟩
    apply h (event :: before) event' after (by rw [heq]; rfl) q
    rw [run_cons hstep]
    exact hrun
  · intro h before event' after heq q hrun
    cases before with
    | nil =>
      simp only [List.nil_append, List.cons.injEq] at heq
      have hq : p = q := Outcome.ok.inj hrun
      rw [← heq.1, ← hq]
      exact h.1
    | cons first before =>
      simp only [List.cons_append, List.cons.injEq] at heq
      apply h.2 before event' after heq.2 q
      rw [← heq.1, run_cons hstep] at hrun
      exact hrun

/-- The run lemma. -/
theorem run_live_iff (events : List Event) (hp : Invariant p) {q : Process}
    (hrun : run events p = .ok q) : Live q.world ↔ Live p.world ∧ TidyRun events p := by
  induction events generalizing p with
  | nil =>
    have hq : p = q := Outcome.ok.inj hrun
    subst hq
    constructor
    · intro hlive
      exact ⟨hlive, fun before event after heq => by simp at heq⟩
    · intro h
      exact h.1
  | cons event events ih =>
    obtain ⟨p', hstep, hp'⟩ := happen_invariant p event hp
    rw [run_cons hstep] at hrun
    rw [ih hp' hrun, happen_live_iff hp hstep, tidyRun_cons hstep, and_assoc]

/-! ## The collector -/

theorem tidyRun_collect (order : List Udata) (p : Process) :
    TidyRun (order.map .collect) p := by
  intro before event after heq q _
  have hmem : event ∈ order.map Event.collect := by
    rw [heq]
    exact List.mem_append_right _ List.mem_cons_self
  obtain ⟨u, -, rfl⟩ := List.mem_map.mp hmem
  trivial

/-- What was destroyed in a run stays destroyed. -/
theorem run_destroyed_grows (events : List Event) (hp : Invariant p) {q : Process}
    (hrun : run events p = .ok q) : p.world.host.destroyed <+: q.world.host.destroyed := by
  induction events generalizing p with
  | nil =>
    have hq : p = q := Outcome.ok.inj hrun
    exact hq ▸ List.prefix_rfl
  | cons event events ih =>
    obtain ⟨p', hstep, hp', hchanges⟩ := happen_changes hp event
    rw [run_cons hstep] at hrun
    exact (destroyed_grows hchanges).trans (ih hp' hrun)

/-- The collector destroys the object of a zombie once more. -/
theorem not_nodup_of_zombie (order : List Udata) (hp : Invariant p) (hz : Zombie p.world z)
    (hmem : z ∈ order) {q : Process} (hrun : run (order.map .collect) p = .ok q) :
    ¬ q.world.host.destroyed.Nodup := by
  induction order generalizing p with
  | nil => exact absurd hmem List.not_mem_nil
  | cons u order ih =>
    obtain ⟨p', hstep, hp', hchanges⟩ := happen_changes hp (.collect u)
    rw [List.map_cons, run_cons hstep] at hrun
    by_cases hu : u = z
    · subst hu
      obtain ⟨o, ho, hmetatable, href, hdestroyed⟩ := hz
      obtain ⟨name, hname⟩ := Option.ne_none_iff_exists'.mp hmetatable
      have hfirst : [handle u].head? = some (handle u) := rfl
      have hlast : [handle u].getLast? = some (handle u) := rfl
      obtain ⟨p'', hfinalizer, heq⟩ := finalizer_eq hp hfirst hlast ho hname href
      have hcollect : happen p (.collect u) = .ok p'' := by
        show collect p u = .ok p''
        simp only [collect, ho, Option.bind_some, hname]
        exact hfinalizer
      have hsame : p'' = p' := by
        rw [hstep, Outcome.ok.injEq] at hcollect
        exact hcollect.symm
      subst hsame
      intro hnodup
      have hnodup' := hnodup.sublist (run_destroyed_grows _ hp' hrun).sublist
      rw [(objects_host_of_unload_eq heq).2, host_cleared_destroy] at hnodup'
      exact (List.nodup_append.mp hnodup').2.2 _ hdestroyed _ (List.mem_singleton_self _) rfl
    · refine ih hp' (zombie_of_changes hchanges hz ?_) ?_ hrun
      · intro u' name hfinalised
        cases hfinalised with
        | collect => exact hu rfl
      · rcases List.mem_cons.mp hmem with rfl | hmem
        · exact absurd rfl hu
        · exact hmem

theorem live_initial : Live initial.world where
  once := List.nodup_nil
  noZombie := fun z hz => by
    obtain ⟨o, ho, -⟩ := hz
    simp [initial] at ho

end

/-- A script destroys every object at most once, for every order in which the
collector finalises the rest, exactly when all its calls of finalisers are
tidy. -/
theorem single_destruction_iff (events : List Event) :
    SingleDestruction events ↔ TidyRun events initial := by
  obtain ⟨p, hrun, hp⟩ := run_invariant events initial_invariant
  have hlive : Live p.world ↔ TidyRun events initial := by
    rw [run_live_iff events initial_invariant hrun]
    exact and_iff_right live_initial
  rw [← hlive]
  constructor
  · intro h
    obtain ⟨p', hrun', hall⟩ := h
    have hsame : p = p' := by
      rw [hrun, Outcome.ok.injEq] at hrun'
      exact hrun'
    subst hsame
    obtain ⟨q, hcollect, hnodup, -⟩ := hall _ (List.Perm.refl _)
    refine ⟨hnodup.sublist (run_destroyed_grows _ hp hcollect).sublist, fun z hz => ?_⟩
    have hmem : z ∈ List.range p.world.objects.length := by
      obtain ⟨o, ho, -⟩ := hz
      exact List.mem_range.mpr (List.getElem?_eq_some_iff.mp ho).1
    exact not_nodup_of_zombie _ hp hz hmem hcollect hnodup
  · intro hlive
    refine ⟨p, hrun, fun order _ => ?_⟩
    obtain ⟨q, hcollect, hq⟩ := run_invariant (order.map .collect) hp
    have hlive' : Live q.world :=
      (run_live_iff _ hp hcollect).mpr ⟨hlive, tidyRun_collect order p⟩
    refine ⟨q, hcollect, hlive'.once, fun obj hobj => ?_⟩
    obtain ⟨id, -, rfl⟩ := hq.sound.destroyed obj hobj
    rfl

/-- Checks pass and the driver succeeds. -/
def succeeds : Answer :=
  { ok := true, raises := false, toBSON := none, field := .nil, found := false }

/-- `local c = newClient(); c:__gc(nil)`. -/
def gcWithSecondArgument : List Event := [
  .call ⟨⟨"newClient", none, [.lua, .make .client]⟩, by decide +kernel⟩ [],
  .step succeeds, .step succeeds, .step succeeds,
  .gc .client [handle 0, .nil]]

/-- The handle keeps its metatable, and the collector destroys the client again. -/
theorem second_argument_destroys_twice : ¬ SingleDestruction gcWithSecondArgument := by
  intro h
  obtain ⟨p, hrun, hall⟩ := h
  have hp := Outcome.ok.inj hrun
  subst hp
  obtain ⟨q, hcollect, hnodup, -⟩ := hall [0] (List.Perm.refl _)
  have hq := Outcome.ok.inj hcollect
  subst hq
  exact absurd hnodup (by decide)

end Vklib.Handle
