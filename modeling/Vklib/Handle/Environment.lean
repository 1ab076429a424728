import Vklib.Handle.Invariant
import Mathlib.Logic.Relation

/-!
# Environments keep what a handle uses alive

The environments of a handle form a chain: its user value is one, and each links
to that of the parent.  A handle that is reachable keeps its chain reachable, so
the collector does not finalise the handles in it before that handle.
`KeepAlive` says that the client and the GridFS objects that the object of a
handle uses are there, and that the modes tell the references apart.  It holds
in every state of every run (`environments_keepAlive`).
-/

namespace Vklib.Handle

open Vklib.Lua

/-- A handle owns an environment of the chain that starts at a value. -/
inductive InChain (heap : Heap (Opaque TypeName)) (m : Udata) : Value → Prop where
  | here {e : Ref} (howner : (heap.get e).get (.int 1) = handle m) : InChain heap m (.table e)
  | next {e : Ref} (h : InChain heap m ((heap.get e).get (.int 3))) : InChain heap m (.table e)

/-- A driver object uses another one, directly or indirectly. -/
def Uses (births : List Birth) : Native → Native → Prop :=
  Relation.ReflTransGen fun obj obj' => parentOf births obj = some obj'

/-- The handles of documents and of read preferences stand alone. -/
def dependent (name : TypeName) : Prop := name ≠ .bson ∧ name ≠ .readprefs

/-- The objects that are destroyed with their handles while others use them. -/
def keeper (name : TypeName) : Prop := name = .client ∨ name = .gridfs

/-- Every handle keeps what its object uses alive, and has its mode. -/
structure KeepAlive (L : State) : Prop where
  /-- A handle descends from a client. -/
  client : ∀ (h : Udata) (o : Userdata), L.objects[h]? = some o →
    ∀ t, kind L.host.births o.payload = some t → dependent t →
      ∃ c, Uses L.host.births o.payload c ∧ kind L.host.births c = some .client
  /-- The client and the GridFS objects that it descends from are in its chain. -/
  chain : ∀ (h : Udata) (o : Userdata), L.objects[h]? = some o →
    ∀ t, kind L.host.births o.payload = some t → dependent t →
      ∀ c, Uses L.host.births o.payload c → (∃ t', kind L.host.births c = some t' ∧ keeper t') →
        ∃ (m : Udata) (p : Userdata), L.objects[m]? = some p ∧ p.payload = c ∧
          InChain L.heap m o.uservalue
  /-- References, and only they, have a mode. -/
  mode : ∀ (h : Udata) (o : Userdata), L.objects[h]? = some o →
    kind L.host.births o.payload ≠ some .bson →
      ∃ mode, getHandleMode { L with stack := [handle h] } 1 =
          .ok (mode, { L with stack := [handle h] }) ∧ (mode ≠ 0 ↔ h ∈ L.host.refs)

section

variable {L : State}

/-- What an object uses is the object itself or what its parent uses. -/
theorem uses_iff {births : List Birth} {obj obj' c : Native}
    (hparent : parentOf births obj = some obj') :
    Uses births obj c ↔ c = obj ∨ Uses births obj' c := by
  constructor
  · intro h
    rcases Relation.ReflTransGen.cases_head h with heq | ⟨obj'', hstep, hrest⟩
    · exact Or.inl heq.symm
    · rw [hparent, Option.some.injEq] at hstep
      exact Or.inr (hstep ▸ hrest)
  · intro h
    rcases h with rfl | h
    · exact Relation.ReflTransGen.refl
    · exact Relation.ReflTransGen.head hparent h

/-- An object without parent uses only itself. -/
theorem eq_of_uses {births : List Birth} {obj c : Native} (hparent : parentOf births obj = none)
    (h : Uses births obj c) : c = obj := by
  rcases Relation.ReflTransGen.cases_head h with heq | ⟨obj', hstep, -⟩
  · exact heq.symm
  · rw [hparent] at hstep
    exact absurd hstep (by simp)

/-- Parents are no documents and no read preferences. -/
theorem Parent.dependent {h m : Udata} {obj : Native} {p : Userdata}
    (hparent : Parent L h obj m p) :
    ∃ t, kind L.host.births p.payload = some t ∧ dependent t := by
  obtain ⟨t, ht, hdep⟩ := hparent.typed
  exact ⟨t, ht, hdep.2, hdep.1⟩

/-- The client of a handle: that of its parent, up to a client. -/
theorem Sound.client (hs : Sound L) (h : Udata) (o : Userdata) (ho : L.objects[h]? = some o)
    {t : TypeName} (ht : kind L.host.births o.payload = some t) (hdep : dependent t) :
    ∃ c, Uses L.host.births o.payload c ∧ kind L.host.births c = some .client := by
  induction h using Nat.strong_induction_on generalizing o t with
  | h h ih =>
    have hup {m : Udata} {p : Userdata} (hparent : Parent L h o.payload m p) :
        ∃ c, Uses L.host.births o.payload c ∧ kind L.host.births c = some .client := by
      obtain ⟨t', ht', hdep'⟩ := hparent.dependent
      obtain ⟨c, huses, hclient⟩ := ih m hparent.earlier p hparent.found ht' hdep'
      exact ⟨c, (uses_iff hparent.uses).mpr (Or.inr huses), hclient⟩
    cases hs.linked h o ho with
    | bson hkind =>
      rw [hkind, Option.some.injEq] at ht
      exact absurd ht.symm hdep.1
    | root hkind _ hname =>
      rw [hkind, Option.some.injEq] at ht
      subst ht
      rcases hname with rfl | rfl
      · exact ⟨o.payload, Relation.ReflTransGen.refl, hkind⟩
      · exact absurd rfl hdep.2
    | inherit _ _ _ hparent => exact hup hparent
    | child _ _ hparent => exact hup hparent

/-- The objects that others depend on are in the chain: an inherited environment
starts the same chain, and an environment of its own goes on with that of the
parent. -/
theorem Sound.chain (hs : Sound L) (h : Udata) (o : Userdata) (ho : L.objects[h]? = some o)
    {t : TypeName} (ht : kind L.host.births o.payload = some t) (hdep : dependent t)
    {c : Native} (huses : Uses L.host.births o.payload c)
    (hkeeper : ∃ t', kind L.host.births c = some t' ∧ keeper t') :
    ∃ (m : Udata) (p : Userdata), L.objects[m]? = some p ∧ p.payload = c ∧
      InChain L.heap m o.uservalue := by
  induction h using Nat.strong_induction_on generalizing o t with
  | h h ih =>
    obtain ⟨t', ht', hkeeper'⟩ := hkeeper
    cases hs.linked h o ho with
    | bson hkind =>
      rw [hkind, Option.some.injEq] at ht
      exact absurd ht.symm hdep.1
    | root _ _ _ hparent hvalue henv =>
      have hself : c = o.payload := eq_of_uses hparent huses
      rw [hvalue]
      exact ⟨h, o, ho, hself.symm, .here henv.owner⟩
    | @inherit name m p hkind _ hname hparent hvalue =>
      obtain ⟨t'', ht'', hdep''⟩ := hparent.dependent
      rw [hvalue]
      rcases (uses_iff hparent.uses).mp huses with rfl | huses'
      · rw [hkind, Option.some.injEq] at ht'
        subst ht'
        rcases hkeeper' with rfl | rfl
        · exact absurd rfl hname.1
        · exact absurd rfl hname.2.1
      · exact ih m hparent.earlier p hparent.found ht'' hdep'' huses'
    | @child name m p e mode hkind hname hparent hvalue henv hlink =>
      obtain ⟨t'', ht'', hdep''⟩ := hparent.dependent
      rw [hvalue]
      rcases (uses_iff hparent.uses).mp huses with rfl | huses'
      · exact ⟨h, o, ho, rfl, .here henv.owner⟩
      · obtain ⟨m', p', hp', hpayload, hchain⟩ :=
          ih m hparent.earlier p hparent.found ht'' hdep'' huses'
        exact ⟨m', p', hp', hpayload, .next (hlink ▸ hchain)⟩

theorem Sound.keepAlive (hs : Sound L) : KeepAlive L where
  client h o ho _ ht hdep := hs.client h o ho ht hdep
  chain h o ho _ ht hdep _ huses hkeeper := hs.chain h o ho ht hdep huses hkeeper
  mode h o ho hkind := by
    have hs' : Sound { L with stack := [handle h] } :=
      sound_of_growth hs (growth_of_unload_eq rfl)
    obtain ⟨mode, hmode, href⟩ := hs'.mode (h := h) rfl ho hkind
    refine ⟨mode, hmode, href.trans ?_⟩
    rw [hs.refs h]
    constructor
    · intro hreference
      exact ⟨o, ho, hreference⟩
    · intro hreference
      obtain ⟨o', ho', hreference⟩ := hreference
      rw [ho, Option.some.injEq] at ho'
      exact ho' ▸ hreference

end

/-- Every run of a script, with any arguments, returns in a state where the
environments keep alive what the handles use. -/
theorem environments_keepAlive (events : List Event) :
    ∃ p, run events initial = .ok p ∧ KeepAlive p.world := by
  obtain ⟨p, hrun, hp⟩ := run_invariant events initial_invariant
  exact ⟨p, hrun, hp.sound.keepAlive⟩

end Vklib.Handle
