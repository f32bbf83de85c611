import Nexios.Vmm.Paging

/-!
# Mapping a page

`map_page_in_pml4_try` walks to the page table, with new tables where they are missing and with a
leaf of 2 MiB split into pages, and writes one entry. The split drops the flags of the leaf other
than PRESENT, WRITE, USER and NX, so the neighbours keep their flags only if there are no others.
-/

open Function Bool

namespace Nexios.Paging

variable {n : ℕ} {m : Pmm} {p q : Path} {e leaf : Entry} {ensure : Bool} {D C : Prop}
  {f g : Path → Option Translation}

inductive MapOutcome
  | ok
  | pageAlloc
  /-- the ENSURE on the owner of the page has failed -/
  | halted
  deriving DecidableEq

/-- The rest of the walk from a table of level `n`, and the write. -/
def mapAt (ensure : Bool) (leaf : Entry) : (n : ℕ) → Pmm → Table n → Path → MapOutcome × Table n × Pmm
  | 0, m, t, p => if ensure then (.ok, update t (p 0) leaf, m) else (.halted, t, m)
  | n + 1, m, t, p =>
    let r := enter m (t (p (n + 1)))
    if r.1 then
      let u := mapAt ensure leaf n r.2.2 r.2.1.2 p
      (u.1, update t (p (n + 1)) (r.2.1.1, u.2.1), u.2.2)
    else (.pageAlloc, update t (p (n + 1)) r.2.1, r.2.2)

/-- `phys_addr` may be mapped for the user: it is behind the memory, or a user page. -/
def mapPageInPml4Try (m : Pmm) (t : Table 3) (p : Path) (phys : Entry) (user executable : Bool)
    (mayMap : Entry → Bool) : MapOutcome × Table 3 × Pmm :=
  mapAt (!user || mayMap phys) (encodeMapLeaf phys user executable) 3 m t p

/-! ## One entry changes -/

theorem behind_table (hp : present e) (hs : splitNeeded e = false) (t : Table n) :
    behind (e, t) q = (translate n t q).map (restrict e) :=
  onSlot_link (s := (e, t)) hp hs

theorem translate_update (t : Table (n + 1)) (i : Fin 512) (s : Slot n) (q : Path) :
    translate (n + 1) (update t i s : Fin 512 → Slot n) q =
      if q (n + 1) = i then behind s q else translate (n + 1) t q := by
  rw [translate, update_apply]
  split_ifs <;> rfl

theorem blockAt_update (hp : present e) (hs : splitNeeded e = false) (t : Table (n + 1))
    (i : Fin 512) (t' : Table n) (q : Path) :
    blockAt (n + 1) (update t i (e, t') : Fin 512 → Slot n) q =
      if q (n + 1) = i then blockAt n t' q else blockAt (n + 1) t q := by
  rw [blockAt, update_apply]
  split_ifs
  · exact onSlot_link (s := (e, t')) hp hs
  · rfl

theorem samePage_succ : SamePage (n + 1) p q ↔ q (n + 1) = p (n + 1) ∧ SamePage n p q := by
  constructor
  · exact fun h => ⟨h _ le_rfl, fun l hl => h l (Nat.le_succ_of_le hl)⟩
  · intro h l hl
    rcases Nat.le_succ_iff.mp hl with hl | rfl
    exacts [h.2 l hl, h.1]

/-- The page next to `p` in its block. -/
def neighbour (p : Path) : Path := update p 0 (p 0 + 1)

theorem neighbour_ne (p : Path) : ¬ SamePage n p (neighbour p) := by
  intro h
  have h0 := h 0 (Nat.zero_le n)
  rw [neighbour, update_self] at h0
  generalize p 0 = i at h0
  revert i
  decide +kernel

theorem neighbour_succ (p : Path) (n : ℕ) : neighbour p (n + 1) = p (n + 1) :=
  update_of_ne (Nat.succ_ne_zero n) _ _

/-- An operation on page `p` that takes the translation `f` to `g`: if `D`, nothing changes, and
otherwise no other page does exactly if `C`. The flags a split drops tell the next page apart. -/
structure Edits (n : ℕ) (p : Path) (D C : Prop) (f g : Path → Option Translation) : Prop where
  kept : ∀ q, D ∨ C ∧ ¬ SamePage n p q → g q = f q
  lost : ¬ D → ¬ C →
    (g (neighbour p)).map Translation.dropped ≠ (f (neighbour p)).map Translation.dropped

namespace Edits

theorem under {t t' : Table n} (h : Edits n p D C (translate n t) (translate n t'))
    (hp : present e) (hs : splitNeeded e = false) :
    Edits n p D C (behind (e, t)) (behind (e, t')) := by
  have hdropped : Translation.dropped ∘ restrict e = Translation.dropped :=
    funext (dropped_restrict e)
  refine ⟨fun q hq => ?_, fun hD hC => ?_⟩
  · rw [behind_table hp hs, behind_table hp hs, h.kept q hq]
  · rw [behind_table hp hs, behind_table hp hs, Option.map_map, Option.map_map, hdropped]
    exact h.lost hD hC

theorem update {t : Table (n + 1)} {s : Slot n}
    (h : Edits n p D C (behind (t (p (n + 1)))) (behind s)) :
    Edits (n + 1) p D C (translate (n + 1) t)
      (translate (n + 1) (Function.update t (p (n + 1)) s : Fin 512 → Slot n)) := by
  refine ⟨fun q hq => ?_, fun hD hC => ?_⟩
  · rw [translate_update]
    split_ifs with hi
    · rw [h.kept q (hq.imp_right (And.imp_right fun hne hsame => hne (samePage_succ.mpr ⟨hi, hsame⟩))),
        ← hi]
      rfl
    · rfl
  · have hlost := h.lost hD hC
    rw [translate_update, if_pos (neighbour_succ p n)]
    rwa [← neighbour_succ p n] at hlost

theorem iff (h : Edits n p D C f g) (hD : ¬ D) : (∀ q, ¬ SamePage n p q → g q = f q) ↔ C := by
  refine ⟨fun hall => ?_, fun hC q hq => h.kept q (.inr ⟨hC, hq⟩)⟩
  by_contra hC
  exact h.lost hD hC (congrArg _ (hall _ (neighbour_ne p)))

end Edits

/-! ## The walk -/

structure Mapped (m : Pmm) (t : Table n) (p : Path) (leaf : Entry) (ensure : Bool)
    (r : MapOutcome × Table n × Pmm) : Prop where
  grows : ∀ a, m.allocated a → r.2.2.allocated a
  wf : WellFormed r.2.2.allocated n r.2.1
  level : r.1 = .pageAlloc → n ≠ 0
  set : r.1 = .ok → present leaf →
    translate n r.2.1 p = some (granted n t p (leafView leaf))
  edits : Edits n p (r.1 = .pageAlloc) (∀ e ∈ blockAt n t p, Plain e) (translate n t)
    (translate n r.2.1)
  blocks : ∀ q, blockAt n t q = none → blockAt n r.2.1 q = none

theorem mapped_zero (t : Table 0) : Mapped m t p leaf ensure (mapAt ensure leaf 0 m t p) := by
  have hlost : ¬ (∀ e ∈ blockAt 0 t p, Plain e) → False := fun hC => hC fun e he => (by cases he)
  unfold mapAt
  split_ifs
  · refine ⟨fun _ h => h, trivial, fun h => (by cases h), fun _ hleaf => ?_,
      ⟨fun q hq => ?_, fun _ hC => (hlost hC).elim⟩, fun _ _ => rfl⟩
    · simp only [translate, update_self, hleaf, if_true, granted]
    · have hne : q 0 ≠ p 0 := fun h => (hq.resolve_left fun h => (by cases h)).2
        fun l hl => Nat.le_zero.mp hl ▸ h
      simp only [translate, update_of_ne hne]
  · exact ⟨fun _ h => h, trivial, fun h => (by cases h), fun h => (by cases h),
      ⟨fun _ _ => rfl, fun _ hC => (hlost hC).elim⟩, fun _ _ => rfl⟩

section

variable {s : Slot n} {a : Entry → Bool} {u : MapOutcome × Table n × Pmm} (h : SlotOk a s)
  (hu : Mapped m (inner s) p leaf ensure u)
include h hu

theorem Mapped.edits_inner (hp : present e) (hs : splitNeeded e = false)
    (he : restrict e = limit s) : Edits n p (u.1 = .pageAlloc)
      (∀ e ∈ (onSlot s none some fun _ t => blockAt n t p), Plain e) (behind s)
      (behind (e, u.2.1)) := by
  have hedits := hu.edits.under hp hs
  have hinner : ∀ q, behind (e, inner s) q = (translate n (inner s) q).map (limit s) :=
    fun q => he ▸ behind_table hp hs _
  rcases inner_view h with hview | ⟨rfl, hp', hs', hview⟩
  · have hbehind : behind (e, inner s) = behind s := funext fun q => (hinner q).trans (hview q).1
    rwa [hbehind, (hview p).2] at hedits
  · -- the leaf is split into the pages of a new table
    have hafter : ∀ q, ¬ SamePage 0 p q →
        behind (e, u.2.1) q = some (leafView (splitEntry s.1 (q 0))) := fun q hq =>
      (hedits.kept q (.inr ⟨fun e he => (by cases he), hq⟩)).trans ((hinner q).trans (hview q))
    have hbefore : ∀ q, behind s q = some (blockView s.1 (q 0)) := fun q => onSlot_block hp' hs'
    rw [onSlot_block hp' hs']
    refine ⟨fun q hq => ?_, fun _ hC => ?_⟩
    · obtain ⟨hC, hne⟩ := hq.resolve_left fun hfail => hu.level hfail rfl
      rw [hafter q hne, hbefore, leafView_eq_blockView (hC _ rfl)]
    · rw [hafter _ (neighbour_ne p), hbefore]
      refine fun heq => dropped_ne (fun hplain => hC ?_) _ (Option.some.inj heq)
      rintro e ⟨⟩
      exact hplain

theorem Mapped.blocks_inner (hq : (onSlot s none some fun _ t => blockAt n t q) = none) :
    blockAt n u.2.1 q = none := by
  rcases inner_view h with hview | ⟨rfl, -⟩
  · exact hu.blocks q ((hview q).2.trans hq)
  · rfl

end

theorem mapped_mapAt {t : Table n} (h : WellFormed m.allocated n t) :
    Mapped m t p leaf ensure (mapAt ensure leaf n m t p) := by
  induction n generalizing m with
  | zero => exact mapped_zero t
  | succ n ih =>
    have he := entered_enter (h (p (n + 1)))
    rw [mapAt]
    generalize enter m (t (p (n + 1))) = r at he
    by_cases hr : r.1 = true
    · obtain ⟨hp, hs, halloc, hlimit, hinner⟩ := he.table hr
      have hwf := wellFormed_inner (h (p (n + 1)))
      have hu := ih (hwf.mono he.grows)
      simp only [hr, if_true, hinner]
      generalize mapAt ensure leaf n r.2.2 (inner (t (p (n + 1)))) p = u at hu
      have hgrows := fun a ha => hu.grows a (he.grows a ha)
      refine ⟨hgrows, (h.mono hgrows).update (.table hs (hu.grows _ halloc) hu.wf) _,
        fun _ => n.succ_ne_zero, fun hok hleaf => ?_, (hu.edits_inner (h _) hp hs hlimit).update,
        fun q hq => ?_⟩
      · rw [translate_update, if_pos rfl, behind_table hp hs, hu.set hok hleaf, hlimit]
        rfl
      · rw [blockAt_update hp hs]
        split_ifs with hi
        · rw [blockAt, hi] at hq
          exact hu.blocks_inner (h _) hq
        · exact hq
    · rw [not_eq_true] at hr
      simp only [hr, he.failed hr, update_eq_self]
      exact ⟨he.grows, h.mono he.grows, fun _ => n.succ_ne_zero, fun h => (by cases h),
        ⟨fun _ _ => rfl, fun hD => absurd rfl hD⟩, fun _ hq => hq⟩

end Nexios.Paging
