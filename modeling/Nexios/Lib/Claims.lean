import Mathlib.Data.List.Basic
import Mathlib.Tactic.Cases

/-!
# Tables of exclusive claims

A table of `N` slots in which each occupied slot claims a key. A claim is refused when the key is
already claimed or no slot is free; a release frees the first slot that claims the key. As long as
no key is claimed twice, the set of claimed keys is all there is to say about a table.

`Owned` relates the claimed keys to those who own them.
-/

open Function List

namespace Nexios

structure ClaimSlot (K : Type*) where
  occupied : Bool
  key : K
  deriving DecidableEq, Repr

abbrev ClaimTable (K : Type*) := ℕ → ClaimSlot K

namespace ClaimTable

variable {K : Type*} {N : ℕ} {c c' : ClaimTable K} {k k' : K} {i : ℕ}

def Claimed (N : ℕ) (c : ClaimTable K) (k : K) : Prop :=
  ∃ i < N, (c i).occupied = true ∧ (c i).key = k

def Single (N : ℕ) (c : ClaimTable K) : Prop :=
  ∀ i j, i < N → j < N → (c i).occupied → (c j).occupied → (c i).key = (c j).key → i = j

def free (N : ℕ) (c : ClaimTable K) : Option ℕ := (List.range N).find? fun i => !(c i).occupied

theorem free_eq_some (h : free N c = some i) : i < N ∧ (c i).occupied = false := by
  refine ⟨mem_range.mp (mem_of_find?_eq_some h), ?_⟩
  simpa using find?_some h

theorem claimed_update (hi : i < N) (x : ClaimSlot K) : Claimed N (update c i x) k ↔
      x.occupied = true ∧ x.key = k ∨ ∃ j < N, j ≠ i ∧ (c j).occupied = true ∧ (c j).key = k := by
  constructor
  · rintro ⟨j, hj, hocc⟩
    by_cases hji : j = i
    · subst hji
      rw [update_self] at hocc
      exact .inl hocc
    · rw [update_of_ne hji] at hocc
      exact .inr ⟨j, hj, hji, hocc⟩
  · rintro (hx | ⟨j, hj, hji, hocc⟩)
    · exact ⟨i, hi, by rwa [update_self]⟩
    · exact ⟨j, hj, by rwa [update_of_ne hji]⟩

theorem claimed_iff_other (hfree : (c i).occupied = false) :
    (∃ j < N, j ≠ i ∧ (c j).occupied = true ∧ (c j).key = k) ↔ Claimed N c k := by
  constructor
  · rintro ⟨j, hj, -, hocc⟩
    exact ⟨j, hj, hocc⟩
  · rintro ⟨j, hj, hocc, hkey⟩
    refine ⟨j, hj, ?_, hocc, hkey⟩
    rintro rfl
    rw [hfree] at hocc
    cases hocc

theorem Single.update (h : Single N c) {x : ClaimSlot K}
    (hx : x.occupied → ∀ j < N, j ≠ i → (c j).occupied → (c j).key ≠ x.key) :
    Single N (update c i x) := by
  intro a b ha hb hoa hob hkey
  by_cases hai : a = i
  · by_cases hbi : b = i
    · rw [hai, hbi]
    · rw [hai, update_self] at hoa hkey
      rw [update_of_ne hbi] at hob hkey
      exact absurd hkey.symm (hx hoa b hb hbi hob)
  · rw [update_of_ne hai] at hoa hkey
    by_cases hbi : b = i
    · rw [hbi, update_self] at hob hkey
      exact absurd hkey (hx hob a ha hai hoa)
    · rw [update_of_ne hbi] at hob hkey
      exact h a b ha hb hoa hob hkey

variable [DecidableEq K]

instance : Decidable (Claimed N c k) :=
  inferInstanceAs (Decidable (∃ i < N, (c i).occupied = true ∧ (c i).key = k))

def holder (N : ℕ) (c : ClaimTable K) (k : K) : Option ℕ :=
  (List.range N).find? fun i => (c i).occupied && decide ((c i).key = k)

def claim (N : ℕ) (c : ClaimTable K) (k : K) : Option (ClaimTable K × ℕ) :=
  match holder N c k with
  | some _ => none
  | none => (free N c).map fun i => (update c i ⟨true, k⟩, i)

/-- `blank` is what a release leaves in the key of the slot. -/
def release (N : ℕ) (blank : K → K) (c : ClaimTable K) (k : K) : ClaimTable K :=
  match holder N c k with
  | none => c
  | some i => update c i ⟨false, blank k⟩

theorem holder_eq_some (h : holder N c k = some i) :
    i < N ∧ (c i).occupied = true ∧ (c i).key = k := by
  refine ⟨mem_range.mp (mem_of_find?_eq_some h), ?_⟩
  simpa using find?_some h

theorem holder_eq_none : holder N c k = none ↔ ¬ Claimed N c k := by
  simp only [holder, find?_eq_none, mem_range, Bool.and_eq_true,
    decide_eq_true_eq]
  constructor
  · rintro h ⟨i, hi, hocc⟩
    exact h i hi hocc
  · intro h i hi hocc
    exact h ⟨i, hi, hocc⟩

theorem claim_eq_some (h : claim N c k = some (c', i)) :
    ¬ Claimed N c k ∧ i < N ∧ (c i).occupied = false ∧ c' = update c i ⟨true, k⟩ := by
  unfold claim at h
  split at h
  · cases h
  · next hnone =>
    obtain ⟨j, hj, he⟩ := Option.map_eq_some_iff.mp h
    cases he
    obtain ⟨hi, hfree⟩ := free_eq_some hj
    exact ⟨holder_eq_none.mp hnone, hi, hfree, rfl⟩

theorem claimed_claim (h : claim N c k = some (c', i)) :
    Claimed N c' k' ↔ Claimed N c k' ∨ k' = k := by
  obtain ⟨-, hi, hfree, rfl⟩ := claim_eq_some h
  rw [claimed_update hi, claimed_iff_other hfree]
  constructor
  · rintro (⟨-, hk⟩ | hc)
    · exact .inr hk.symm
    · exact .inl hc
  · rintro (hc | rfl)
    · exact .inr hc
    · exact .inl ⟨rfl, rfl⟩

theorem Single.claim (h : Single N c) (hc : claim N c k = some (c', i)) : Single N c' := by
  obtain ⟨hno, -, -, rfl⟩ := claim_eq_some hc
  apply h.update
  intro _ j hj _ hocc hkey
  exact hno ⟨j, hj, hocc, hkey⟩

theorem release_of_not_claimed (blank : K → K) (h : ¬ Claimed N c k) : release N blank c k = c := by
  rw [release, holder_eq_none.mpr h]

theorem claimed_release (hs : Single N c) (blank : K → K) :
    Claimed N (release N blank c k) k' ↔ Claimed N c k' ∧ k' ≠ k := by
  unfold release
  cases hk : holder N c k with
  | none =>
    have hno := holder_eq_none.mp hk
    constructor
    · intro hc
      refine ⟨hc, ?_⟩
      rintro rfl
      exact hno hc
    · exact fun hc => hc.1
  | some i =>
    obtain ⟨hi, hocc, hkey⟩ := holder_eq_some hk
    simp only [claimed_update hi, Bool.false_eq_true, false_and, false_or]
    constructor
    · rintro ⟨j, hj, hji, hoj, rfl⟩
      refine ⟨⟨j, hj, hoj, rfl⟩, ?_⟩
      intro he
      exact hji (hs j i hj hi hoj hocc (he.trans hkey.symm))
    · rintro ⟨⟨j, hj, hoj, rfl⟩, hne⟩
      refine ⟨j, hj, ?_, hoj, rfl⟩
      rintro rfl
      exact hne hkey

theorem Single.release (h : Single N c) (blank : K → K) : Single N (release N blank c k) := by
  unfold ClaimTable.release
  split
  · exact h
  · apply h.update
    intro hx
    cases hx

/-- A claim that is given back leaves the claimed keys as they were. -/
theorem claimed_release_claim (hs : Single N c) (blank : K → K) (h : claim N c k = some (c', i)) :
    Claimed N (ClaimTable.release N blank c' k) k' ↔ Claimed N c k' := by
  rw [claimed_release (hs.claim h), claimed_claim h]
  constructor
  · rintro ⟨hc | hk, hne⟩
    · exact hc
    · exact absurd hk hne
  · intro hc
    refine ⟨.inl hc, ?_⟩
    rintro rfl
    exact (claim_eq_some h).1 hc

end ClaimTable

/-- The claimed keys are those of the owners, each of which owns at most one and none owns
another's. -/
structure Owned {O K : Type*} (claimed : K → Prop) (own : O → Option K) : Prop where
  held : ∀ k, claimed k ↔ ∃ o, own o = some k
  one : ∀ o o' k, own o = some k → own o' = some k → o = o'

namespace Owned

variable {O K : Type*} {claimed claimed' : K → Prop} {own : O → Option K} {o : O} {k : K}

theorem empty (h : ∀ k, ¬ claimed k) : Owned claimed fun _ : O => none := by
  constructor
  · intro k
    constructor
    · exact fun hk => absurd hk (h k)
    · rintro ⟨_, ho⟩
      cases ho
  · intro o o' k ho
    cases ho

theorem congr (h : Owned claimed own) (hc : ∀ k, claimed' k ↔ claimed k) : Owned claimed' own :=
  ⟨fun k => (hc k).trans (h.held k), h.one⟩

variable [DecidableEq O]

theorem grant (h : Owned claimed own) (hnew : own o = none) (hno : ¬ claimed k)
    (hc : ∀ k', claimed' k' ↔ claimed k' ∨ k' = k) : Owned claimed' (update own o (some k)) := by
  have hcases : ∀ o' k', update own o (some k) o' = some k' ↔
      o' = o ∧ k' = k ∨ o' ≠ o ∧ own o' = some k' := by
    intro o' k'
    rw [update_apply]
    split_ifs with ho
    · simp [ho, eq_comm]
    · simp [ho]
  constructor
  · intro k'
    rw [hc, h.held]
    constructor
    · rintro (⟨o', ho'⟩ | rfl)
      · refine ⟨o', (hcases o' k').mpr (.inr ⟨?_, ho'⟩)⟩
        rintro rfl
        rw [hnew] at ho'
        cases ho'
      · exact ⟨o, (hcases o k').mpr (.inl ⟨rfl, rfl⟩)⟩
    · rintro ⟨o', ho'⟩
      rcases (hcases o' k').mp ho' with ⟨-, rfl⟩ | ⟨-, hold⟩
      · exact .inr rfl
      · exact .inl ⟨o', hold⟩
  · intro o₁ o₂ k' h₁ h₂
    rcases (hcases o₁ k').mp h₁ with ⟨rfl, rfl⟩ | ⟨-, hold₁⟩
    · rcases (hcases o₂ k').mp h₂ with ⟨rfl, -⟩ | ⟨-, hold₂⟩
      · rfl
      · exact absurd ((h.held k').mpr ⟨o₂, hold₂⟩) hno
    · rcases (hcases o₂ k').mp h₂ with ⟨-, rfl⟩ | ⟨-, hold₂⟩
      · exact absurd ((h.held k').mpr ⟨o₁, hold₁⟩) hno
      · exact h.one o₁ o₂ k' hold₁ hold₂

theorem drop (h : Owned claimed own) (ho : own o = some k)
    (hc : ∀ k', claimed' k' ↔ claimed k' ∧ k' ≠ k) : Owned claimed' (update own o none) := by
  have hcases : ∀ o' k', update own o none o' = some k' ↔ o' ≠ o ∧ own o' = some k' := by
    intro o' k'
    rw [update_apply]
    split_ifs with heq <;> simp [heq]
  constructor
  · intro k'
    rw [hc, h.held]
    constructor
    · rintro ⟨⟨o', ho'⟩, hne⟩
      refine ⟨o', (hcases o' k').mpr ⟨?_, ho'⟩⟩
      rintro rfl
      rw [ho] at ho'
      exact hne (Option.some.inj ho').symm
    · rintro ⟨o', ho'⟩
      obtain ⟨hne, hold⟩ := (hcases o' k').mp ho'
      refine ⟨⟨o', hold⟩, ?_⟩
      rintro rfl
      exact hne (h.one o' o k' hold ho)
  · intro o₁ o₂ k' h₁ h₂
    exact h.one o₁ o₂ k' ((hcases o₁ k').mp h₁).2 ((hcases o₂ k').mp h₂).2

end Owned

end Nexios
