import Nexios.Iommu.Tables
import Nexios.Lib.Radix

/-!
# The table trees

The tables of a domain lie at depths 0 to 3 under its root, and `Trees` says that the trees of all
domains share no page and that the held pages are the tables of these trees. Three updates keep it:
an empty new table is linked, an empty table is unlinked and freed, a leaf entry is written. A walk,
the cascade after a cleared leaf and the mapping loop are sequences of these updates.

Between calls no table but a root is empty (`Full`). So the leaves of a domain determine which
tables it has, and two memories with the same leaves hold the same pages if one extends the other.
-/

open Function List Option

namespace Nexios.Iommu

open Radix

def nextTable (v : Word) : Option Word :=
  if v &&& kSlEntryAddrMask = 0 then none else some (v &&& kSlEntryAddrMask)

theorem nextTable_eq_none {v : Word} : nextTable v = none ↔ v &&& kSlEntryAddrMask = 0 := by
  unfold nextTable
  split_ifs with h
  · exact iff_of_true rfl h
  · exact iff_of_false (by simp) h

theorem nextTable_eq_some {v t : Word} :
    nextTable v = some t ↔ v &&& kSlEntryAddrMask ≠ 0 ∧ v &&& kSlEntryAddrMask = t := by
  unfold nextTable
  split_ifs with h
  · exact iff_of_false (by simp) (fun ht => ht.1 h)
  · rw [some.injEq]
    exact ⟨fun ht => ⟨h, ht⟩, fun ht => ht.2⟩

theorem nextTable_zero : nextTable 0 = none := by decide

/-- The position of a leaf entry: the path to its table and the index in it. -/
abbrev LeafPos := List ℕ × ℕ

/-- The indices by which a walk of `n` more levels descends. -/
def digits (iova : Word) : ℕ → List ℕ
  | 0 => []
  | n + 1 => slIndex iova (n + 2) :: digits iova n

def leafPos (iova : Word) : LeafPos := (digits iova 3, slIndex iova 1)

@[simp] theorem digits_length (iova : Word) (n : ℕ) : (digits iova n).length = n := by
  induction n with
  | zero => rfl
  | succ n ih => rw [digits, length_cons, ih]

theorem slIndex_lt (iova : Word) (level : ℕ) : slIndex iova level < kEntriesPerTable := by
  have hle : (iova >>> (12 + 9 * (level - 1)) &&& 0x1FF#64).toNat ≤ 0x1FF := by
    exact Nat.and_le_right
  exact Nat.lt_succ_of_le hle

namespace TableMem

variable {roots roots' : ℕ → Option Word} {m m' m'' : TableMem} {d i : ℕ} {p q : List ℕ}
  {t u page : Word}
  {a : LeafPos}

/-- The table at the end of a path of indices from the root of a domain. -/
def tab (m : TableMem) (roots : ℕ → Option Word) (d : ℕ) (p : List ℕ) : Option Word :=
  Radix.tab nextTable roots m.entry d p

/-- The leaf entry at a position, `0` where the table is missing. -/
def leaf (m : TableMem) (roots : ℕ → Option Word) (d : ℕ) (a : LeafPos) : Word :=
  match m.tab roots d a.1 with
  | none => 0
  | some t => m.entry t a.2

theorem write_entry_apply (m : TableMem) (e : PathStep) (v : Word) (t : Word) (i : ℕ) :
    (m.write e v).entry t i = if t = e.table ∧ i = e.idx then v else m.entry t i := by
  rw [write_entry]
  by_cases ht : t = e.table
  · subst ht
    rw [update_self, update_apply]
    simp only [true_and]
  · rw [update_of_ne ht, if_neg (fun h => ht h.1)]

theorem leaf_of_none (h : m.tab roots d a.1 = none) : m.leaf roots d a = 0 := by
  rw [leaf, h]

theorem leaf_of_some (h : m.tab roots d a.1 = some t) : m.leaf roots d a = m.entry t a.2 := by
  rw [leaf, h]

theorem leaf_congr (htab : m'.tab roots' d a.1 = m.tab roots d a.1)
    (hentry : ∀ t, m.tab roots d a.1 = some t → m'.entry t = m.entry t) :
    m'.leaf roots' d a = m.leaf roots d a := by
  rw [leaf, leaf, htab]
  cases ht : m.tab roots d a.1 with
  | none => rfl
  | some t => exact congrFun (hentry t ht) a.2

theorem tab_root {root : Word} (hroot : roots d = some root) : m.tab roots d [] = some root := by
  rw [tab, tab_nil, hroot]

theorem tab_concat (h : m.tab roots d p = some t) (i : ℕ) :
    m.tab roots d (p ++ [i]) = nextTable (m.entry t i) := by
  rw [tab, Radix.tab_concat, ← tab, h, Option.bind_some]

theorem tab_parent (h : m.tab roots d (p ++ q) = some u) : ∃ t, m.tab roots d p = some t :=
  tab_of_append h

structure Trees (roots : ℕ → Option Word) (m : TableMem) : Prop where
  one : ∀ {d d' p p' t}, p.length ≤ 3 → p'.length ≤ 3 → m.tab roots d p = some t →
    m.tab roots d' p' = some t → d = d' ∧ p = p'
  held : ∀ t, m.held t = true ↔ ∃ d p, p.length ≤ 3 ∧ m.tab roots d p = some t
  /-- Entries above the leaves are bare addresses. -/
  links : ∀ d p t i, p.length < 3 → m.tab roots d p = some t →
    m.entry t i &&& kSlEntryAddrMask = m.entry t i
  short : ∀ t i, m.held t → kEntriesPerTable ≤ i → m.entry t i = 0
  pages : ∀ t, m.held t → t ≠ 0 ∧ t &&& kSlEntryAddrMask = t
  free : ∀ t ∈ m.free, t ≠ 0 ∧ t &&& kSlEntryAddrMask = t ∧ m.held t = false
  nodup : m.free.Nodup
  once : m.doubleFree = false

/-- No table is empty, apart from roots and possibly the one at `q` under `d`. -/
def FullBut (roots : ℕ → Option Word) (m : TableMem) (d : ℕ) (q : List ℕ) : Prop :=
  ∀ d' p t, p ≠ [] → p.length ≤ 3 → m.tab roots d' p = some t → ¬ (d' = d ∧ p = q) →
    ∃ i, m.entry t i ≠ 0

def Full (roots : ℕ → Option Word) (m : TableMem) : Prop :=
  ∀ d p t, p ≠ [] → p.length ≤ 3 → m.tab roots d p = some t → ∃ i, m.entry t i ≠ 0

/-- Tables were only added, and the leaves are the same. -/
structure Extends (roots : ℕ → Option Word) (m m' : TableMem) : Prop where
  tab : ∀ d p t, p.length ≤ 3 → m.tab roots d p = some t → m'.tab roots d p = some t
  leaf : ∀ d a, a.1.length = 3 → m'.leaf roots d a = m.leaf roots d a

/-- Equal but for what pages hold that are not allocated. -/
structure Same (m m' : TableMem) : Prop where
  free : m'.free = m.free
  held : m'.held = m.held
  doubleFree : m'.doubleFree = m.doubleFree
  entry : ∀ t, m.held t → m'.entry t = m.entry t

theorem Extends.refl (roots : ℕ → Option Word) (m : TableMem) : Extends roots m m :=
  ⟨fun _ _ _ _ h => h, fun _ _ _ => rfl⟩

theorem Extends.trans (h : Extends roots m m') (h' : Extends roots m' m'') :
    Extends roots m m'' where
  tab d p t hp ht := h'.tab d p t hp (h.tab d p t hp ht)
  leaf d a ha := (h'.leaf d a ha).trans (h.leaf d a ha)

theorem Full.fullBut (h : Full roots m) (d : ℕ) (q : List ℕ) : FullBut roots m d q :=
  fun d' p t hne hp ht _ => h d' p t hne hp ht

theorem FullBut.full_of_nonempty (h : FullBut roots m d q) (hq : m.tab roots d q = some t)
    (hne : ∃ i, m.entry t i ≠ 0) : Full roots m := by
  intro d' p u hp hlen hu
  by_cases hpos : d' = d ∧ p = q
  · obtain ⟨rfl, rfl⟩ := hpos
    rw [hq] at hu
    cases hu
    exact hne
  · exact h d' p u hp hlen hu hpos

namespace Same

theorem refl (m : TableMem) : Same m m := ⟨rfl, rfl, rfl, fun _ _ => rfl⟩

theorem trans (h : Same m m') (h' : Same m' m'') : Same m m'' where
  free := h'.free.trans h.free
  held := h'.held.trans h.held
  doubleFree := h'.doubleFree.trans h.doubleFree
  entry t ht := by
    have ht' : m'.held t = true := by rw [h.held, ht]
    rw [h'.entry t ht', h.entry t ht]

theorem release (h : Same m m') (e : PathStep) (page : Word) :
    Same ((m.write e 0).freePage page) ((m'.write e 0).freePage page) where
  free := congrArg (page :: ·) h.free
  held := by
    funext t
    simp only [freePage_held, write_held, update_apply, h.held]
  doubleFree := by
    simp only [freePage_doubleFree, write_doubleFree, write_held, h.doubleFree, h.held]
  entry t ht := by
    funext i
    have hheld : m.held t = true := by
      simp only [freePage_held, update_apply] at ht
      split_ifs at ht with heq
      exact ht
    simp only [freePage_entry, write_entry_apply, h.entry t hheld]

theorem unwind (h : Same m m') (linked : List Link) : Same (m.unwind linked) (m'.unwind linked) := by
  induction linked generalizing m m' with
  | nil => exact h
  | cons l linked ih => exact ih (h.release l.parent l.page)

end Same

def linkNew (m : TableMem) (e : PathStep) : TableMem :=
  m.allocZeroedTablePage.1.write e m.allocZeroedTablePage.2

section link

variable {rest : List Word} {e : PathStep}

variable (hfree : m.free = page :: rest)
include hfree

theorem alloc_of_free : m.allocZeroedTablePage =
      ({ m with
        free := rest
        held := update m.held page true
        entry := update m.entry page fun _ => 0 }, page) := by
  rw [allocZeroedTablePage, hfree]

theorem linkNew_entry (u : Word) (j : ℕ) : (m.linkNew e).entry u j =
      if u = e.table ∧ j = e.idx then page else if u = page then 0 else m.entry u j := by
  rw [linkNew, alloc_of_free hfree, write_entry_apply]
  simp only [update_apply]
  split_ifs <;> rfl

theorem linkNew_held (u : Word) : (m.linkNew e).held u = if u = page then true else m.held u := by
  rw [linkNew, alloc_of_free hfree]
  exact update_apply _ _ _ _

theorem linkNew_free : (m.linkNew e).free = rest := by
  rw [linkNew, alloc_of_free hfree]
  rfl

theorem linkNew_doubleFree : (m.linkNew e).doubleFree = m.doubleFree := by
  rw [linkNew, alloc_of_free hfree]
  rfl

end link

def unlink (m : TableMem) (e : PathStep) (page : Word) : TableMem := (m.freePage page).write e 0

namespace Trees

variable {rest : List Word}

section

variable (h : Trees roots m)
include h

theorem mem_held (hp : p.length ≤ 3) (ht : m.tab roots d p = some t) : m.held t = true :=
  (h.held t).mpr ⟨d, p, hp, ht⟩

section

variable (hfree : m.free = page :: rest)
include hfree

theorem not_held_of_free : page ≠ 0 ∧ page &&& kSlEntryAddrMask = page ∧ m.held page = false :=
  h.free page (hfree ▸ mem_cons_self)

theorem ne_page (hp : p.length ≤ 3) (ht : m.tab roots d p = some t) : t ≠ page := by
  rintro rfl
  have hheld := h.mem_held hp ht
  rw [(h.not_held_of_free hfree).2.2] at hheld
  cases hheld

theorem grow (hq : q.length ≤ 3) (hnone : m.tab roots d q = none) (htab : ∀ d' p', p'.length ≤ 3 →
      m'.tab roots' d' p' = if d' = d ∧ p' = q then some page else m.tab roots d' p')
    (hfree' : m'.free = rest) (hheld : ∀ u, m'.held u = if u = page then true else m.held u)
    (hdouble : m'.doubleFree = m.doubleFree)
    (hentry : ∀ u j, m'.entry u j = 0 ∨ (m'.entry u j = page ∧ j < kEntriesPerTable) ∨
      (u ≠ page ∧ m'.entry u j = m.entry u j)) : Trees roots' m' := by
  have hpage := h.not_held_of_free hfree
  have hold : ∀ {d' p' t'}, p'.length ≤ 3 → m'.tab roots' d' p' = some t' →
      (d' = d ∧ p' = q) ∧ t' = page ∨ m.tab roots d' p' = some t' := by
    intro d' p' t' hp' ht'
    rw [htab d' p' hp'] at ht'
    split_ifs at ht' with hpos
    · cases ht'
      exact .inl ⟨hpos, rfl⟩
    · exact .inr ht'
  constructor
  case one =>
    intro d₁ d₂ p₁ p₂ u h₁ h₂ ht₁ ht₂
    obtain ⟨⟨rfl, rfl⟩, rfl⟩ | ht₁ := hold h₁ ht₁
    · obtain ⟨⟨rfl, rfl⟩, -⟩ | ht₂ := hold h₂ ht₂
      · exact ⟨rfl, rfl⟩
      · exact absurd rfl (h.ne_page hfree h₂ ht₂)
    · obtain ⟨-, rfl⟩ | ht₂ := hold h₂ ht₂
      · exact absurd rfl (h.ne_page hfree h₁ ht₁)
      · exact h.one h₁ h₂ ht₁ ht₂
  case held =>
    intro u
    rw [hheld]
    constructor
    · intro hu
      split_ifs at hu with heq
      · exact ⟨d, q, hq, by rw [htab _ _ hq, if_pos ⟨rfl, rfl⟩, heq]⟩
      obtain ⟨d', p', hp', hu⟩ := (h.held u).mp hu
      refine ⟨d', p', hp', ?_⟩
      rw [htab _ _ hp', if_neg, hu]
      rintro ⟨rfl, rfl⟩
      rw [hnone] at hu
      cases hu
    · rintro ⟨d', p', hp', hu⟩
      obtain ⟨-, rfl⟩ | hu := hold hp' hu
      · rw [if_pos rfl]
      · rw [h.mem_held hp' hu, ite_self]
  case links =>
    intro d' p' t' j hp' ht'
    obtain hz | ⟨hlink, -⟩ | ⟨hne, he⟩ := hentry t' j
    · rw [hz]
      exact BitVec.zero_and
    · rw [hlink, hpage.2.1]
    · obtain ⟨-, rfl⟩ | ht' := hold hp'.le ht'
      · exact absurd rfl hne
      · rw [he, h.links d' p' t' j hp' ht']
  case short =>
    intro u j hu hj
    obtain hz | ⟨-, hlt⟩ | ⟨hne, he⟩ := hentry u j
    · exact hz
    · exact absurd hj hlt.not_ge
    · rw [hheld, if_neg hne] at hu
      rw [he, h.short u j hu hj]
  case pages =>
    intro u hu
    rw [hheld] at hu
    split_ifs at hu with heq
    · exact heq ▸ ⟨hpage.1, hpage.2.1⟩
    · exact h.pages u hu
  case free =>
    intro u hu
    rw [hfree'] at hu
    have hnodup := h.nodup
    rw [hfree, nodup_cons] at hnodup
    rw [hheld, if_neg (ne_of_mem_of_not_mem hu hnodup.1)]
    exact h.free u (hfree ▸ mem_cons_of_mem _ hu)
  case nodup =>
    rw [hfree']
    have hnodup := h.nodup
    rw [hfree] at hnodup
    exact hnodup.of_cons
  case once => rw [hdouble, h.once]

end

theorem ne_of_length {d' : ℕ} {p' : List ℕ} {t' : Word} (hp : p.length ≤ 3)
    (hp' : p'.length ≤ 3) (ht : m.tab roots d p = some t) (ht' : m.tab roots d' p' = some t')
    (hlt : p.length ≠ p'.length) : t ≠ t' := by
  rintro rfl
  exact hlt (congrArg List.length (h.one hp hp' ht ht').2)

theorem shrink (hq : q.length ≤ 3) (hu : m.tab roots d q = some u) (htab : ∀ d' p', p'.length ≤ 3 →
      m'.tab roots' d' p' = if d' = d ∧ p' = q then none else m.tab roots d' p')
    (hfree : m'.free = u :: m.free) (hheld : ∀ w, m'.held w = if w = u then false else m.held w)
    (hdouble : m'.doubleFree = (m.doubleFree || !m.held u))
    (hentry : ∀ w j, m'.entry w j = 0 ∨ m'.entry w j = m.entry w j) : Trees roots' m' := by
  have hheldu : m.held u = true := h.mem_held hq hu
  have hpage := h.pages u hheldu
  have hold : ∀ {d' p' t'}, p'.length ≤ 3 → m'.tab roots' d' p' = some t' →
      m.tab roots d' p' = some t' := by
    intro d' p' t' hp' ht'
    rw [htab d' p' hp'] at ht'
    split_ifs at ht'
    exact ht'
  constructor
  case one =>
    intro d₁ d₂ p₁ p₂ w h₁ h₂ ht₁ ht₂
    exact h.one h₁ h₂ (hold h₁ ht₁) (hold h₂ ht₂)
  case held =>
    intro w
    rw [hheld]
    constructor
    · intro hw
      split_ifs at hw with heq
      obtain ⟨d', p', hp', hw⟩ := (h.held w).mp hw
      refine ⟨d', p', hp', ?_⟩
      rw [htab _ _ hp', if_neg, hw]
      rintro ⟨rfl, rfl⟩
      exact heq (some.inj (hw.symm.trans hu))
    · rintro ⟨d', p', hp', hw⟩
      have hw' := hold hp' hw
      rw [if_neg, h.mem_held hp' hw']
      rintro rfl
      rw [htab _ _ hp', if_pos (h.one hp' hq hw' hu)] at hw
      cases hw
  case links =>
    intro d' p' t' j hp' ht'
    obtain hz | he := hentry t' j
    · rw [hz]
      exact BitVec.zero_and
    · rw [he]
      exact h.links d' p' t' j hp' (hold hp'.le ht')
  case short =>
    intro w j hw hj
    rw [hheld] at hw
    split_ifs at hw
    obtain hz | he := hentry w j
    · exact hz
    · rw [he, h.short w j hw hj]
  case pages =>
    intro w hw
    rw [hheld] at hw
    split_ifs at hw
    exact h.pages w hw
  case free =>
    intro w hw
    rw [hfree] at hw
    rw [hheld]
    obtain rfl | hw := mem_cons.mp hw
    · exact ⟨hpage.1, hpage.2, if_pos rfl⟩
    · obtain ⟨h₁, h₂, h₃⟩ := h.free w hw
      exact ⟨h₁, h₂, by rw [h₃, ite_self]⟩
  case nodup =>
    rw [hfree]
    refine nodup_cons.mpr ⟨fun hmem => ?_, h.nodup⟩
    rw [(h.free u hmem).2.2] at hheldu
    cases hheldu
  case once =>
    rw [hdouble, h.once, hheldu]
    rfl

end

theorem extends_of_graft (hnone : m.tab roots d q = none) (htab : ∀ d' p', p'.length ≤ 3 →
      m'.tab roots d' p' = if d' = d ∧ p' = q then some u else m.tab roots d' p')
    (hempty : ∀ j, m'.entry u j = 0)
    (hentry : ∀ d' p' t' j, p'.length = 3 → m.tab roots d' p' = some t' →
      m'.entry t' j = m.entry t' j) : Extends roots m m' := by
  have hkeep : ∀ d' p' t', p'.length ≤ 3 → m.tab roots d' p' = some t' →
      m'.tab roots d' p' = some t' := by
    intro d' p' t' hp' ht'
    rw [htab d' p' hp', if_neg, ht']
    rintro ⟨rfl, rfl⟩
    rw [hnone] at ht'
    cases ht'
  refine ⟨hkeep, ?_⟩
  intro d' a ha
  cases ht' : m.tab roots d' a.1 with
  | none =>
    have hnew := htab d' a.1 ha.le
    rw [leaf_of_none ht']
    split_ifs at hnew with hpos
    · rw [leaf_of_some hnew, hempty]
    · exact leaf_of_none (hnew.trans ht')
  | some t' =>
    rw [leaf_of_some ht', leaf_of_some (hkeep d' a.1 t' ha.le ht'), hentry d' a.1 t' a.2 ha ht']

section

variable (h : Trees roots m)
include h

section

variable (hp : p.length < 3) (ht : m.tab roots d p = some t)
include hp ht

/-- Another table without entries, or none, is put behind one entry. -/
theorem tab_relink {x : Option Word}
    (hsame : ∀ t' j, m.held t' → ¬ (t' = t ∧ j = i) → m'.entry t' j = m.entry t' j)
    (hx : nextTable (m'.entry t i) = x) (hbare : ∀ u ∈ x, ∀ j, m'.entry u j = 0)
    (hold : ∀ u ∈ m.tab roots d (p ++ [i]), ∀ j, m.entry u j = 0) (d' : ℕ) (p' : List ℕ)
    (hp' : p'.length ≤ 3) :
    m'.tab roots d' p' = if d' = d ∧ p' = p ++ [i] then x else m.tab roots d' p' := by
  have hlinks : ∀ d' p' t' j, p'.length < 3 → m.tab roots d' p' = some t' →
      ¬ (d' = d ∧ p' ++ [j] = p ++ [i]) → nextTable (m'.entry t' j) = nextTable (m.entry t' j) := by
    intro d' p' t' j hp' ht' hoff
    rw [hsame t' j (h.mem_held hp'.le ht')]
    rintro ⟨rfl, rfl⟩
    obtain ⟨rfl, rfl⟩ := h.one hp'.le hp.le ht' ht
    exact hoff ⟨rfl, rfl⟩
  apply tab_graft _ _ (fun _ _ => rfl) hlinks _ _ _ d' p' hp'
  · have hup : m'.tab roots d p = some t := (tab_congr_at hlinks hp.le).trans ht
    exact (tab_concat hup i).trans hx
  · intro u hu j
    rw [hbare u hu j, nextTable_zero]
  · intro u hu j
    rw [hold u hu j, nextTable_zero]

section

variable (hzero : m.entry t i = 0) (hfree : m.free = page :: rest)
include hzero hfree

theorem tab_linkNew (d' : ℕ) (p' : List ℕ) (hp' : p'.length ≤ 3) :
    (m.linkNew ⟨t, i⟩).tab roots d' p' =
      if d' = d ∧ p' = p ++ [i] then some page else m.tab roots d' p' := by
  have hpage := h.not_held_of_free hfree
  apply h.tab_relink hp ht _ _ _ _ d' p' hp'
  · intro t' j ht' hoff
    rw [linkNew_entry hfree, if_neg hoff, if_neg]
    rintro rfl
    rw [hpage.2.2] at ht'
    cases ht'
  · rw [linkNew_entry hfree, if_pos ⟨rfl, rfl⟩, nextTable_eq_some]
    exact ⟨hpage.2.1.symm ▸ hpage.1, hpage.2.1⟩
  · rintro _ ⟨⟩ j
    rw [linkNew_entry hfree, if_neg (fun heq => h.ne_page hfree hp.le ht heq.1.symm), if_pos rfl]
  · intro u hu
    rw [tab_concat ht i, hzero] at hu
    cases hu

theorem linkNew (hi : i < kEntriesPerTable) : Trees roots (m.linkNew ⟨t, i⟩) := by
  have hnone : m.tab roots d (p ++ [i]) = none := by rw [tab_concat ht, hzero, nextTable_zero]
  have hlen : (p ++ [i]).length ≤ 3 := length_append.trans_le hp
  apply h.grow hfree hlen hnone (h.tab_linkNew hp ht hzero hfree) (linkNew_free hfree)
    (linkNew_held hfree) (linkNew_doubleFree hfree)
  intro u j
  rw [linkNew_entry hfree]
  split_ifs with hpos hu
  · exact .inr (.inl ⟨rfl, hpos.2 ▸ hi⟩)
  · exact .inl rfl
  · exact .inr (.inr ⟨hu, rfl⟩)

theorem linkNew_extends : Extends roots m (m.linkNew ⟨t, i⟩) := by
  apply extends_of_graft _ (h.tab_linkNew hp ht hzero hfree)
  · intro j
    rw [linkNew_entry hfree, if_neg (fun heq => h.ne_page hfree hp.le ht heq.1.symm), if_pos rfl]
  · intro d' p' t' j hp' ht'
    rw [linkNew_entry hfree, if_neg, if_neg (h.ne_page hfree hp'.le ht')]
    -- the table of the new link lies above the leaves
    exact fun heq => h.ne_of_length hp'.le hp.le ht' ht (by omega) heq.1
  · rw [tab_concat ht, hzero, nextTable_zero]

end

variable (hu : m.tab roots d (p ++ [i]) = some u) (hempty : ∀ j, m.entry u j = 0)
include hu hempty

theorem tab_unlink (d' : ℕ) (p' : List ℕ) (hp' : p'.length ≤ 3) :
    (m.unlink ⟨t, i⟩ u).tab roots d' p' =
      if d' = d ∧ p' = p ++ [i] then none else m.tab roots d' p' := by
  apply h.tab_relink hp ht _ _ _ _ d' p' hp'
  · intro t' j _ hoff
    rw [unlink, write_entry_apply, if_neg hoff, freePage_entry]
  · rw [unlink, write_entry_apply, if_pos ⟨rfl, rfl⟩, nextTable_zero]
  · rintro _ ⟨⟩
  · intro t' ht' j
    have heq : t' = u := some.inj (ht'.symm.trans hu)
    rw [heq, hempty j]

theorem unlink : Trees roots (m.unlink ⟨t, i⟩ u) := by
  have hlen : (p ++ [i]).length ≤ 3 := length_append.trans_le hp
  apply h.shrink hlen hu (h.tab_unlink hp ht hu hempty)
  case hfree => rfl
  case hheld => exact fun w => update_apply _ _ _ _
  case hdouble => rfl
  case hentry =>
    intro w j
    rw [TableMem.unlink, write_entry_apply]
    split_ifs
    · exact .inl rfl
    · exact .inr rfl

theorem unlink_extends : Extends roots (m.unlink ⟨t, i⟩ u) m := by
  have htab := h.tab_unlink hp ht hu hempty
  have hlen : (p ++ [i]).length ≤ 3 := length_append.trans_le hp
  refine extends_of_graft ((htab d _ hlen).trans (if_pos ⟨rfl, rfl⟩)) ?_ hempty ?_
  · intro d' p' hp'
    rw [htab d' p' hp']
    split_ifs with hpos
    · rw [hpos.1, hpos.2, hu]
    · rfl
  · intro d' p' t' j hp' ht'
    rw [htab d' p' hp'.le] at ht'
    split_ifs at ht'
    rw [TableMem.unlink, write_entry_apply, if_neg, freePage_entry]
    exact fun heq => h.ne_of_length hp'.le hp.le ht' ht (by omega) heq.1

end

theorem retab
    (htab : ∀ d p, p.length ≤ 3 → m'.tab roots d p = m.tab roots d p) (hfree : m'.free = m.free)
    (hheld : m'.held = m.held) (hdouble : m'.doubleFree = m.doubleFree)
    (hlinks : ∀ d p t i, p.length < 3 → m.tab roots d p = some t → m'.entry t i = m.entry t i)
    (hshort : ∀ t i, m.held t → kEntriesPerTable ≤ i → m'.entry t i = m.entry t i) :
    Trees roots m' := by
  constructor
  case one =>
    intro d₁ d₂ p₁ p₂ w h₁ h₂ ht₁ ht₂
    rw [htab _ _ h₁] at ht₁
    rw [htab _ _ h₂] at ht₂
    exact h.one h₁ h₂ ht₁ ht₂
  case held =>
    intro w
    rw [hheld, h.held w]
    constructor
    all_goals rintro ⟨d', p', hp', hw⟩
    · exact ⟨d', p', hp', (htab _ _ hp').trans hw⟩
    · exact ⟨d', p', hp', (htab _ _ hp').symm.trans hw⟩
  case links =>
    intro d p t i hp ht
    rw [htab _ _ hp.le] at ht
    rw [hlinks d p t i hp ht]
    exact h.links d p t i hp ht
  case short =>
    intro w j hw hj
    rw [hheld] at hw
    rw [hshort w j hw hj, h.short w j hw hj]
  case pages =>
    rw [hheld]
    exact h.pages
  case free =>
    rw [hheld, hfree]
    exact h.free
  case nodup => exact hfree ▸ h.nodup
  case once => exact hdouble.trans h.once

section

variable (hq : q.length = 3) (ht : m.tab roots d q = some t)
include hq ht

theorem write_above (v : Word) (d' : ℕ) (p' : List ℕ) (t' : Word) (j : ℕ) (hp' : p'.length < 3)
    (ht' : m.tab roots d' p' = some t') : (m.write ⟨t, i⟩ v).entry t' j = m.entry t' j := by
  rw [write_entry_apply, if_neg]
  exact fun heq => h.ne_of_length hp'.le hq.le ht' ht (by omega) heq.1

theorem tab_writeLeaf (v : Word) (d' : ℕ) (p' : List ℕ) (hp' : p'.length ≤ 3) :
    (m.write ⟨t, i⟩ v).tab roots d' p' = m.tab roots d' p' :=
  tab_congr (fun d' p' t' j hp' ht' => by rw [h.write_above hq ht v d' p' t' j hp' ht']) d' p' hp'

theorem leaf_writeLeaf (v : Word) (d' : ℕ) (a : LeafPos) (ha : a.1.length = 3) :
    (m.write ⟨t, i⟩ v).leaf roots d' a = if d' = d ∧ a = (q, i) then v else m.leaf roots d' a := by
  have htab := h.tab_writeLeaf (i := i) hq ht v d' a.1 ha.le
  cases ht' : m.tab roots d' a.1 with
  | none =>
    rw [leaf_of_none ht', leaf_of_none (htab.trans ht'), if_neg]
    rintro ⟨rfl, rfl⟩
    rw [ht] at ht'
    cases ht'
  | some t' =>
    rw [leaf_of_some ht', leaf_of_some (htab.trans ht'), write_entry_apply]
    congr 1
    rw [eq_iff_iff]
    constructor
    · rintro ⟨rfl, hidx⟩
      obtain ⟨hd, hpath⟩ := h.one ha.le hq.le ht' ht
      exact ⟨hd, Prod.ext hpath hidx⟩
    · rintro ⟨rfl, rfl⟩
      exact ⟨some.inj (ht'.symm.trans ht), rfl⟩

theorem writeLeaf (hi : i < kEntriesPerTable) (v : Word) : Trees roots (m.write ⟨t, i⟩ v) := by
  apply h.retab (h.tab_writeLeaf hq ht v) rfl rfl rfl (h.write_above hq ht v)
  intro w j _ hj
  rw [write_entry_apply, if_neg (fun heq => (hi.trans_le hj).ne' heq.2)]

end

theorem tab_same (hs : Same m m') (d : ℕ) (p : List ℕ) (hp : p.length ≤ 3) :
    m'.tab roots d p = m.tab roots d p :=
  tab_congr (fun _ _ t _ hp ht => by rw [hs.entry t (h.mem_held hp.le ht)]) d p hp

theorem same (hs : Same m m') : Trees roots m' := by
  apply h.retab (h.tab_same hs) hs.free hs.held hs.doubleFree
  · intro d p t i hp ht
    rw [hs.entry t (h.mem_held hp.le ht)]
  · intro w j hw _
    rw [hs.entry w hw]

theorem leaf_same (hs : Same m m') (d : ℕ) (a : LeafPos)
    (ha : a.1.length = 3) : m'.leaf roots d a = m.leaf roots d a :=
  leaf_congr (h.tab_same hs d a.1 ha.le) fun t ht => hs.entry t (h.mem_held ha.le ht)

end

variable {rest : List Word} {root : Word}

section

variable (h : Trees roots m) (hnone : roots d = none) (hfree : m.free = page :: rest)
include h hnone hfree

theorem tab_addRoot (d' : ℕ) (p : List ℕ) (hp : p.length ≤ 3) :
    m.allocZeroedTablePage.1.tab (update roots d (some page)) d' p =
      if d' = d ∧ p = [] then some page else m.tab roots d' p := by
  have hentry : ∀ u j, m.allocZeroedTablePage.1.entry u j = if u = page then 0 else m.entry u j := by
    intro u j
    rw [alloc_of_free hfree]
    simp only [update_apply]
    split_ifs <;> rfl
  apply tab_graft _ _ _ _ _ _ _ d' p hp
  · exact fun d' hd => update_of_ne (fun heq => hd ⟨heq, rfl⟩) _ _
  · intro d₁ p₁ t₁ j hp₁ ht₁ _
    rw [hentry, if_neg (h.ne_page hfree hp₁.le ht₁)]
  · rw [tab_nil, update_self]
  · rintro _ ⟨⟩ j
    rw [hentry, if_pos rfl, nextTable_zero]
  · intro t ht
    rw [tab_nil, hnone] at ht
    cases ht

theorem addRoot : Trees (update roots d (some page)) m.allocZeroedTablePage.1 := by
  have hnone' : m.tab roots d [] = none := by rw [tab, tab_nil, hnone]
  apply h.grow (q := []) hfree (Nat.zero_le 3) hnone' (h.tab_addRoot hnone hfree)
  all_goals rw [alloc_of_free hfree]
  · exact fun u => update_apply _ _ _ _
  · intro u j
    simp only [update_apply]
    split_ifs with hu
    · exact .inl rfl
    · exact .inr (.inr ⟨hu, rfl⟩)

end

/-- What `domain_destroy` does with the memory once the root is empty. -/
theorem tab_dropRoot (hroot : roots d = some root) (hempty : ∀ j, m.entry root j = 0) (d' : ℕ)
    (p : List ℕ) : (m.freePage root).tab (update roots d none) d' p =
      if d' = d ∧ p = [] then none else m.tab roots d' p := by
  apply tab_graft _ _ _ _ _ _ _ d' p le_rfl
  · exact fun d' hd => update_of_ne (fun heq => hd ⟨heq, rfl⟩) _ _
  · exact fun _ _ _ _ _ _ _ => rfl
  · rw [tab_nil, update_self]
  · rintro _ ⟨⟩
  · intro t ht j
    rw [tab_nil, hroot] at ht
    cases ht
    rw [hempty, nextTable_zero]

theorem dropRoot (h : Trees roots m) (hroot : roots d = some root)
    (hempty : ∀ j, m.entry root j = 0) : Trees (update roots d none) (m.freePage root) := by
  apply h.shrink (q := []) (Nat.zero_le 3) (tab_root hroot)
    (fun d' p' _ => tab_dropRoot hroot hempty d' p')
  case hfree => rfl
  case hheld => exact fun w => update_apply _ _ _ _
  case hdouble => rfl
  case hentry => exact fun w j => .inr rfl

end Trees

end TableMem

end Nexios.Iommu
