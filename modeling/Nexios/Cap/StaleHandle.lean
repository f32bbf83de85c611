import Nexios.Cap.SlotHistory

/-!
# Stale handles

The handle that an install returns names one occupancy of a slot. Once that occupancy has been
removed or revoked, every call with the handle fails: those that start later fail at their first
check of the slot, and a copy, grant or mint that had made its lookup before fails at its second
look. This lasts until the slot has been refilled `2 ^ 32` times.
-/

namespace Nexios.Cap

open State Option

variable {n : ℕ} {s : State n} {m : CNode}

def Birth.handle (b : Birth) (cspaceId : BitVec 32) : BitVec 64 :=
  encodeUserHandle cspaceId (some b.occ.idx) b.gen

/-- No call with `handle` on the node `c` has an effect in `s`. -/
structure Rejects (s : State n) (c : ObjId) (handle : BitVec 64) : Prop where
  lookup : ∀ t want need u, s.step (.lookup t c handle want need) = some u → u = s
  copy : ∀ t dst u, s.step (.copy t c handle dst) = some u → u = s
  mint : ∀ t dst mask u, s.step (.mint t c handle dst mask) = some u → u = s
  grant : ∀ t dst u, s.step (.grant t c handle dst) = some u → u = s
  revoke : ∀ t u, s.step (.revoke t c handle) = some u → u = s
  reread : ∀ t q rest u, s.stack t = .reread q :: rest → q.src = c → q.handle = handle →
    s.step (.resume t) = some u → u = s.setStack t rest

/-- The slot is free, or filled with a generation other than that of the handle. -/
def Mismatch (m : CNode) (handle : BitVec 64) : Prop :=
  (m.slots (handleSlot handle).toNat).occupied = true →
    (m.slots (handleSlot handle).toNat).gen ≠ handleGen handle

variable {handle : BitVec 64}

theorem Mismatch.lookup_eq_none (h : Mismatch m handle)
    (want : CapType) (need : CapRights) : m.lookup handle want need = none := by
  by_contra hne
  obtain ⟨o, ho⟩ := ne_none_iff_exists'.mp hne
  obtain ⟨-, hocc, hgen, -⟩ := CNode.lookup_eq_some ho
  exact h hocc hgen.symm

theorem Mismatch.revokeSlot_eq_none (h : Mismatch m handle) : m.revokeSlot handle = none := by
  by_contra hne
  obtain ⟨⟨m', o⟩, ho⟩ := ne_none_iff_exists'.mp hne
  obtain ⟨-, hocc, hgen, -⟩ := CNode.revokeSlot_eq_some ho
  exact h hocc hgen.symm

theorem Mismatch.reread_eq_none (h : Mismatch m handle)
    (op : BitVec 32) : m.reread handle op = none := by
  by_contra hne
  obtain ⟨⟨type, rights⟩, ho⟩ := ne_none_iff_exists'.mp hne
  obtain ⟨-, hocc, hgen, -⟩ := CNode.reread_eq_some ho
  exact h hocc hgen

theorem Mismatch.derive {u : State n} {c : ObjId} (h : Mismatch (s.node c) handle)
    {t : Fin n} {dst : ObjId} {kind : Derive} (hs : s.derive t c handle dst kind = some u) : u = s := by
  have hp : s.pinned c handle .null kind.needRights = none := by
    rw [pinned, h.lookup_eq_none]
    rfl
  simp only [State.derive, hp] at hs
  split_ifs at hs
  exact (some.inj hs).symm

theorem Mismatch.rejects {c : ObjId}
    (h : s.liveNode c → Mismatch (s.node c) handle) : Rejects s c handle := by
  have hderive : ∀ t dst kind u, s.derive t c handle dst kind = some u → u = s := by
    intro t dst kind u hs
    have hc : s.stack t = [] ∧ s.mayLookup c handle .null kind.needRights = true := by
      by_contra hc
      rw [State.derive, if_neg hc] at hs
      cases hs
    exact (h (mayLookup_iff.mp hc.2).1).derive hs
  constructor
  case lookup =>
    intro t want need u hs
    simp only [State.step] at hs
    split_ifs at hs with hc
    have hm := h (mayLookup_iff.mp hc.2).1
    have hp : s.pinned c handle want need = none := by
      rw [pinned, hm.lookup_eq_none]
      rfl
    rw [hp] at hs
    exact (some.inj hs).symm
  case copy =>
    intro t dst u hs
    simp only [State.step] at hs
    split_ifs at hs
    · exact (some.inj hs).symm
    · exact hderive t dst _ u hs
  case mint =>
    intro t dst mask u hs
    simp only [State.step] at hs
    split_ifs at hs
    · exact (some.inj hs).symm
    · exact hderive t dst _ u hs
  case grant =>
    intro t dst u hs
    exact hderive t dst _ u hs
  case revoke =>
    intro t u hs
    simp only [State.step] at hs
    split_ifs at hs with hc
    rw [(h hc.2).revokeSlot_eq_none] at hs
    exact (some.inj hs).symm
  case reread =>
    intro t q rest u hst hsrc hhandle hs
    simp only [State.step, hst, State.stepFrame, hsrc, hhandle] at hs
    split_ifs at hs with hc
    rw [(h hc).reread_eq_none] at hs
    exact (some.inj hs).symm

theorem SlotHistory.mismatch_of_removed (h : SlotHistory s) {b : Birth}
    (hb : b ∈ s.births) (hrem : b.occ ∈ s.removed)
    (hreuse : s.fills b.occ.node b.occ.idx - (b.occ.fill + 1) < 2 ^ 32)
    (hd : s.disposed b.occ.node = 0) (cspaceId : BitVec 32) :
    Mismatch (s.node b.occ.node) (b.handle cspaceId) := by
  obtain ⟨hgen, -, hidx⟩ := h.birth b hb
  have hslot : (handleSlot (b.handle cspaceId)).toNat = b.occ.idx :=
    handleSlot_encodeHandle cspaceId b.gen hidx
  have hhandle : handleGen (b.handle cspaceId) = b.gen := handleGen_encodeHandle _ _ _
  intro hocc heq
  rw [hslot] at hocc heq
  rw [hhandle] at heq
  rcases h.removed b.occ hrem with hlt | ⟨-, hfree⟩
  · have hg := h.gen b.occ.node b.occ.idx hd
    rw [slot, heq, hocc, hgen] at hg
    have hfill : b.occ.fill = s.fills b.occ.node b.occ.idx - 1 :=
      ofNat_inj_of_close (by omega) (by omega) hg
    omega
  · rw [slot, hocc] at hfree
    cases hfree

/-- After the occupancy that a returned handle denotes has been removed or revoked, no call with
the handle succeeds, as long as the slot has been reused fewer than `2 ^ 32` times. -/
theorem stale_handle_rejected {s : State n} {as : List (Action n)}
    (hr : Run step anyStep (init n) as s) {b : Birth} (hb : b ∈ s.births) (hrem : b.occ ∈ s.removed)
    (hreuse : s.fills b.occ.node b.occ.idx - (b.occ.fill + 1) < 2 ^ 32) (cspaceId : BitVec 32) :
    Rejects s b.occ.node (b.handle cspaceId) := by
  apply Mismatch.rejects
  intro hlive
  obtain ⟨-, hd, -⟩ := (s.liveNode_iff b.occ.node).mp hlive
  exact (SlotHistory.of_run hr).mismatch_of_removed hb hrem hreuse hd cspaceId

/-- An object is installed and removed, and its slot goes to a second object. -/
def reuseSlot : List (Action 1) :=
  [.createNode 0 7#32, .createObject 0, .createObject 0,
    .install 0 0 1 .frame CapRights.read, .resume 0, .resume 0, .remove 0 0 0, .resume 0,
    .install 0 0 2 .frame CapRights.read, .resume 0, .resume 0]

theorem stale_handle_rejected_reuseSlot :
    ∃ s, Run step anyStep (init 1) reuseSlot s ∧
      (s.slot 0 0).obj = some 2 ∧ Rejects s 0 (encodeUserHandle 7#32 (some 0) 0#32) := by
  let s := (exec step anyStep (init 1) reuseSlot).getD (init 1)
  have hr : Run step anyStep (init 1) reuseSlot s := .of_exec rfl
  let b : Birth := ⟨⟨0, 0, 0⟩, 0#32, 1, .frame, CapRights.read, .kernel⟩
  have hb : b ∈ s.births := by decide
  refine ⟨s, hr, rfl, ?_⟩
  exact stale_handle_rejected hr hb (by decide) (by decide) 7#32

end Nexios.Cap
