import Mathlib.Data.List.Infix
import Mathlib.Tactic.Cases

/-!
# Trees of tables in a memory

Tables are rows of entries, and some entries name other tables. A path of indices from a root leads
to at most one table. `tab` gives the table for each of several roots and each path; the trees share
no table when `tab` is injective.

Writing one entry changes what is found behind that entry and nothing else. `tab_graft` says so for
the two writes that keep trees being trees: an entry or a root that led nowhere is made to name a
table without children, or one that named such a table is cleared.
-/

open Option List

namespace Nexios.Radix

variable {A V D : Type*}

def tableAt (next : V → Option A) (e : A → ℕ → V) : A → List ℕ → Option A
  | t, [] => some t
  | t, i :: p => (next (e t i)).bind fun u => tableAt next e u p

/-- The table at the end of a path from the root of `d`. -/
def tab (next : V → Option A) (roots : D → Option A) (e : A → ℕ → V) (d : D) (p : List ℕ) :
    Option A :=
  (roots d).bind fun r => tableAt next e r p

variable {next : V → Option A} {roots roots' : D → Option A} {e e' : A → ℕ → V} {h : ℕ}

theorem tableAt_append (t : A) (p q : List ℕ) :
    tableAt next e t (p ++ q) = (tableAt next e t p).bind fun u => tableAt next e u q := by
  induction p generalizing t with
  | nil => rfl
  | cons i p ih =>
    simp only [cons_append, tableAt, bind_assoc, ih]

theorem tab_append (d : D) (p q : List ℕ) :
    tab next roots e d (p ++ q) = (tab next roots e d p).bind fun u => tableAt next e u q := by
  simp only [tab, bind_assoc, tableAt_append]

theorem tab_nil (d : D) : tab next roots e d [] = roots d := by
  exact bind_fun_some (roots d)

theorem tab_concat (d : D) (p : List ℕ) (i : ℕ) :
    tab next roots e d (p ++ [i]) = (tab next roots e d p).bind fun u => next (e u i) := by
  rw [tab_append]
  congr 1
  funext u
  exact bind_fun_some (next (e u i))

theorem tab_of_append {d : D} {p q : List ℕ} {t : A} (h : tab next roots e d (p ++ q) = some t) :
    ∃ u, tab next roots e d p = some u := by
  rw [tab_append] at h
  obtain ⟨u, hu, -⟩ := bind_eq_some_iff.mp h
  exact ⟨u, hu⟩

section

variable (d₀ : D) (q₀ : List ℕ) (hroots : ∀ d, ¬ (d = d₀ ∧ q₀ = []) → roots' d = roots d)
  (hsame : ∀ d p t i, p.length < h → tab next roots e d p = some t →
    ¬ (d = d₀ ∧ p ++ [i] = q₀) → next (e' t i) = next (e t i))
include hroots hsame

/-- Only what lies behind the entry at the end of `q₀` may have changed. -/
theorem tab_congr_off (d : D) (p : List ℕ) (hp : p.length ≤ h) (hoff : ¬ (d = d₀ ∧ q₀ <+: p)) :
    tab next roots' e' d p = tab next roots e d p := by
  induction p using List.reverseRecOn with
  | nil =>
    rw [tab_nil, tab_nil]
    exact hroots d (fun heq => hoff ⟨heq.1, heq.2 ▸ nil_prefix⟩)
  | append_singleton p i ih =>
    have hlen : p.length < h := by
      rw [length_append, length_singleton] at hp
      omega
    have hprev := ih hlen.le (fun hpre => hoff ⟨hpre.1, hpre.2.trans (prefix_append p [i])⟩)
    rw [tab_concat, tab_concat, hprev]
    cases ht : tab next roots e d p with
    | none => rfl
    | some t =>
      exact hsame d p t i hlen ht (fun heq => hoff ⟨heq.1, heq.2 ▸ prefix_rfl⟩)

/-- A table without children is put behind an entry, or taken from there. -/
theorem tab_graft [DecidableEq D] {x : Option A} (hnew : tab next roots' e' d₀ q₀ = x)
    (hbare : ∀ t ∈ x, ∀ j, next (e' t j) = none)
    (hold : ∀ t ∈ tab next roots e d₀ q₀, ∀ j, next (e t j) = none) (d : D) (p : List ℕ)
    (hp : p.length ≤ h) :
    tab next roots' e' d p = if d = d₀ ∧ p = q₀ then x else tab next roots e d p := by
  by_cases hpre : d = d₀ ∧ q₀ <+: p
  · obtain ⟨rfl, r, rfl⟩ := hpre
    cases r with
    | nil =>
      rw [append_nil, if_pos ⟨rfl, rfl⟩, hnew]
    | cons j r =>
      have hne : ¬ (d = d ∧ q₀ ++ j :: r = q₀) := by
        rintro ⟨-, heq⟩
        exact cons_ne_nil j r (append_right_eq_self.mp heq)
      rw [if_neg hne, tab_append, tab_append, hnew]
      have hstop : ∀ (f : A → ℕ → V) (y : Option A), (∀ t ∈ y, ∀ j, next (f t j) = none) →
          (y.bind fun u => tableAt next f u (j :: r)) = none := by
        intro f y hy
        cases y with
        | none => rfl
        | some t => rw [bind_some, tableAt, hy t rfl j, bind_none]
      rw [hstop e' x hbare, hstop e _ hold]
  · rw [tab_congr_off d₀ q₀ hroots hsame d p hp hpre, if_neg]
    rintro ⟨hd, rfl⟩
    exact hpre ⟨hd, prefix_rfl⟩

end

theorem tab_congr_at {d₀ : D} {p₀ : List ℕ} {i₀ : ℕ}
    (hsame : ∀ d p t i, p.length < h → tab next roots e d p = some t →
      ¬ (d = d₀ ∧ p ++ [i] = p₀ ++ [i₀]) → next (e' t i) = next (e t i))
    (hp : p₀.length ≤ h) : tab next roots e' d₀ p₀ = tab next roots e d₀ p₀ := by
  apply tab_congr_off _ _ (fun _ _ => rfl) hsame d₀ p₀ hp
  rintro ⟨-, hpre⟩
  have hle := hpre.length_le
  rw [length_append, length_singleton] at hle
  omega

/-- The entries of all tables above the depth `h` lead where they led. -/
theorem tab_congr (hsame : ∀ d p t i, p.length < h → tab next roots e d p = some t →
      next (e' t i) = next (e t i)) (d : D) (p : List ℕ) (hp : p.length ≤ h) :
    tab next roots e' d p = tab next roots e d p := by
  refine tab_congr_off d (p ++ [0]) (fun _ _ => rfl) (fun d p t i hp ht _ => hsame d p t i hp ht) d p
    hp ?_
  rintro ⟨-, hpre⟩
  simpa using hpre.length_le.trans_lt (Nat.lt_succ_self _)

end Nexios.Radix
