import Nexios.Iommu.PageTables

/-!
# Walks over the table trees

What `slWalk`, `cascadeFreeEmpty` and `mapPages` do in terms of the trees: a walk that allocates
keeps every leaf and adds tables on the way to its own leaf only, a failed one leaves the memory as
it was, and clearing a leaf leaves no empty table behind.
-/

open Function List

namespace Nexios.Iommu.TableMem

variable {roots : ℕ → Option Word} {m m' m₀ : TableMem} {d n : ℕ} {p q : List ℕ}
  {table root iova : Word} {path : List PathStep} {linked : List Link} {rest : List Word} {t : Word}

/-- No allocation happens between calls, and no table but a root is empty. -/
structure Rest (roots : ℕ → Option Word) (m : TableMem) : Prop where
  trees : Trees roots m
  full : Full roots m

/-- The steps of a path, the last first, are those of the walk along `p`. -/
def Trail (roots : ℕ → Option Word) (m : TableMem) (d : ℕ) : List PathStep → List ℕ → Prop
  | [], p => p = []
  | e :: path, p => ∃ q, p = q ++ [e.idx] ∧ m.tab roots d q = some e.table ∧ Trail roots m d path q

theorem slWalk_succ_found (h : nextTable (m.entry table (slIndex iova (n + 2))) = some t)
    (alloc : Bool) : slWalk iova alloc (n + 1) m table path linked =
      slWalk iova alloc n m t (⟨table, slIndex iova (n + 2)⟩ :: path) linked := by
  obtain ⟨hne, ht⟩ := nextTable_eq_some.mp h
  rw [slWalk]
  rw [if_neg hne, ht]

section

variable (h : nextTable (m.entry table (slIndex iova (n + 2))) = none)
include h

theorem slWalk_succ_missing : slWalk iova false (n + 1) m table path linked = (m, none) := by
  rw [slWalk]
  rw [if_pos (nextTable_eq_none.mp h), if_neg Bool.false_ne_true]

theorem slWalk_succ_full (hfree : m.free = []) :
    slWalk iova true (n + 1) m table path linked = (m.unwind linked, none) := by
  have halloc : m.allocZeroedTablePage = (m, 0) := by rw [allocZeroedTablePage, hfree]
  rw [slWalk]
  simp only
  rw [if_pos (nextTable_eq_none.mp h), if_pos trivial, halloc, if_pos rfl]

theorem slWalk_succ_link {page : Word} (hfree : m.free = page :: rest) (hpage : page ≠ 0) :
    slWalk iova true (n + 1) m table path linked =
      slWalk iova true n (m.linkNew ⟨table, slIndex iova (n + 2)⟩) page
        (⟨table, slIndex iova (n + 2)⟩ :: path)
        (⟨⟨table, slIndex iova (n + 2)⟩, page⟩ :: linked) := by
  have hsnd : m.allocZeroedTablePage.2 = page := by rw [alloc_of_free hfree]
  rw [slWalk, linkNew]
  simp only
  rw [if_pos (nextTable_eq_none.mp h), if_pos trivial, hsnd, if_neg hpage]

end

theorem concat_digits (p : List ℕ) (iova : Word) (n : ℕ) :
    p ++ digits iova (n + 1) = p ++ [slIndex iova (n + 2)] ++ digits iova n := by
  rw [digits, append_assoc, singleton_append]

theorem Trail.congr (hsame : ∀ p', p'.length < p.length → m'.tab roots d p' = m.tab roots d p')
    (h : Trail roots m d path p) : Trail roots m' d path p := by
  induction path generalizing p with
  | nil => exact h
  | cons e path ih =>
    obtain ⟨q, rfl, ht, hrest⟩ := h
    have hlt : q.length < (q ++ [e.idx]).length := by
      rw [length_append, length_singleton]
      omega
    exact ⟨q, rfl, (hsame q hlt).trans ht, ih (fun p' hp' => hsame p' (hp'.trans hlt)) hrest⟩

theorem tableEmpty_iff : m.tableEmpty t = true ↔ ∀ i < kEntriesPerTable, m.entry t i = 0 := by
  simp only [tableEmpty, all_eq_true, mem_range, beq_iff_eq]

section

variable (h : Trees roots m) {i : ℕ}
include h

theorem Trees.same_release {t page : Word} (hzero : m.entry t i = 0) (hfree : m.free = page :: rest) :
    Same m (((m.linkNew ⟨t, i⟩).write ⟨t, i⟩ 0).freePage page) := by
  have hpage := h.not_held_of_free hfree
  constructor
  case free =>
    rw [freePage_free, write_free, linkNew_free hfree, hfree]
  case held =>
    funext u
    rw [freePage_held, update_apply, write_held, linkNew_held hfree]
    split_ifs with hu
    · rw [hu, hpage.2.2]
    · rfl
  case doubleFree =>
    rw [freePage_doubleFree, write_doubleFree, write_held, linkNew_held hfree,
      linkNew_doubleFree hfree, if_pos rfl, Bool.not_true, Bool.or_false]
  case entry =>
    intro u hu
    funext j
    rw [freePage_entry, write_entry_apply]
    split_ifs with hpos
    · rw [hpos.1, hpos.2, hzero]
    · rw [linkNew_entry hfree, if_neg hpos, if_neg]
      rintro rfl
      rw [hpage.2.2] at hu
      cases hu

theorem Trees.entry_eq_zero (hp : p.length < 3) (ht : m.tab roots d p = some t)
    (hnone : nextTable (m.entry t i) = none) : m.entry t i = 0 := by
  rw [← h.links d p t i hp ht]
  exact nextTable_eq_none.mp hnone

theorem FullBut.linkNew (hfull : FullBut roots m d p) {page : Word} (hp : p.length < 3)
    (ht : m.tab roots d p = some table) (hzero : m.entry table i = 0)
    (hfree : m.free = page :: rest) : FullBut roots (m.linkNew ⟨table, i⟩) d (p ++ [i]) := by
  intro d' p' t' hne hp' ht' hoff
  rw [h.tab_linkNew hp ht hzero hfree d' p' hp', if_neg hoff] at ht'
  by_cases hpos : d' = d ∧ p' = p
  · obtain ⟨rfl, rfl⟩ := hpos
    have heq : t' = table := Option.some.inj (ht'.symm.trans ht)
    refine ⟨i, ?_⟩
    rw [linkNew_entry hfree, if_pos ⟨heq, rfl⟩]
    exact (h.not_held_of_free hfree).1
  · obtain ⟨j, hj⟩ := hfull d' p' t' hne hp' ht' hpos
    refine ⟨j, ?_⟩
    rw [linkNew_entry hfree, if_neg, if_neg (h.ne_page hfree hp' ht')]
    · exact hj
    · rintro ⟨rfl, -⟩
      exact hpos (h.one hp' hp.le ht' ht)

/-- A walk that allocates: it fails without a trace, or ends at the table of the leaf, which is the
only one that may still be empty. -/
theorem Trees.slWalk_alloc (iova : Word) (path : List PathStep) (hfull : FullBut roots m d p)
    (ht : m.tab roots d p = some table) (hp : p.length + n = 3) (hundo : Same m₀ (m.unwind linked)) :
    (∃ m', slWalk iova true n m table path linked = (m', none) ∧ Same m₀ m') ∨
    ∃ m' t path', slWalk iova true n m table path linked =
        (m', some (⟨t, slIndex iova 1⟩ :: path')) ∧
      Trees roots m' ∧ FullBut roots m' d (p ++ digits iova n) ∧
      m'.tab roots d (p ++ digits iova n) = some t ∧ Extends roots m m' := by
  induction n generalizing m p table path linked with
  | zero =>
    rw [digits, append_nil]
    exact .inr ⟨m, table, path, rfl, h, hfull, ht, .refl roots m⟩
  | succ n ih =>
    rw [concat_digits]
    have hp' : p.length < 3 := by omega
    have hlen : (p ++ [slIndex iova (n + 2)]).length + n = 3 := by
      rw [length_append, length_singleton]
      omega
    have hstep := tab_concat ht (slIndex iova (n + 2))
    cases hnext : nextTable (m.entry table (slIndex iova (n + 2))) with
    | some t =>
      have hne : m.entry table (slIndex iova (n + 2)) ≠ 0 := by
        intro hz
        rw [hz] at hnext
        cases hnext
      rw [slWalk_succ_found hnext]
      exact ih h _ ((hfull.full_of_nonempty ht ⟨_, hne⟩).fullBut d _) (hstep.trans hnext) hlen hundo
    | none =>
      have hzero := h.entry_eq_zero hp' ht hnext
      cases hfree : m.free with
      | nil => exact .inl ⟨m.unwind linked, slWalk_succ_full hnext hfree, hundo⟩
      | cons page rest =>
        rw [slWalk_succ_link hnext hfree (h.not_held_of_free hfree).1]
        have hext := h.linkNew_extends hp' ht hzero hfree
        have htab := h.tab_linkNew hp' ht hzero hfree d (p ++ [slIndex iova (n + 2)]) (by omega)
        rw [if_pos ⟨rfl, rfl⟩] at htab
        have hundo' : Same m₀ ((m.linkNew ⟨table, slIndex iova (n + 2)⟩).unwind
            (⟨⟨table, slIndex iova (n + 2)⟩, page⟩ :: linked)) :=
          hundo.trans ((h.same_release hzero hfree).unwind linked)
        obtain hfail | ⟨m', t, path', hw, h₁, h₂, h₃, h₄⟩ :=
          ih (h.linkNew hp' ht hzero hfree (slIndex_lt iova _)) _
            (hfull.linkNew h hp' ht hzero hfree) htab hlen hundo'
        · exact .inl hfail
        · exact .inr ⟨m', t, path', hw, h₁, h₂, h₃, hext.trans h₄⟩

theorem Trees.cascadeFreeEmpty {e : PathStep} (hfull : FullBut roots m d q) (hq : q.length ≤ 3)
    (ht : m.tab roots d q = some e.table) (htrail : Trail roots m d path q) :
    Rest roots (m.cascadeFreeEmpty (e :: path)) ∧
      Extends roots (m.cascadeFreeEmpty (e :: path)) m := by
  induction path generalizing m q e with
  | nil =>
    have hroot : q = [] := htrail
    subst hroot
    exact ⟨⟨h, fun d' p t hne hp ht => hfull d' p t hne hp ht fun hpos => hne hpos.2⟩, .refl roots m⟩
  | cons parent path ih =>
    obtain ⟨q', rfl, hparent, hrest⟩ := htrail
    have hq' : q'.length < 3 := by
      rw [length_append, length_singleton] at hq
      omega
    unfold TableMem.cascadeFreeEmpty
    split_ifs with hempty
    · have hzero : ∀ j, m.entry e.table j = 0 := by
        intro j
        by_cases hj : j < kEntriesPerTable
        · exact tableEmpty_iff.mp hempty j hj
        · exact h.short e.table j (h.mem_held hq ht) (Nat.le_of_not_lt hj)
      have htab := h.tab_unlink hq' hparent ht hzero
      have hkeep : ∀ p', p'.length ≤ q'.length →
          (m.unlink parent e.table).tab roots d p' = m.tab roots d p' := by
        intro p' hp'
        rw [htab d p' (hp'.trans hq'.le), if_neg]
        rintro ⟨-, rfl⟩
        rw [length_append, length_singleton] at hp'
        omega
      have hfull' : FullBut roots (m.unlink parent e.table) d q' := by
        intro d' p' t' hne hp' ht' hoff
        rw [htab d' p' hp'] at ht'
        split_ifs at ht' with hpos
        obtain ⟨j, hj⟩ := hfull d' p' t' hne hp' ht' hpos
        refine ⟨j, ?_⟩
        rw [TableMem.unlink, write_entry_apply, if_neg]
        · exact hj
        · rintro ⟨rfl, -⟩
          exact hoff (h.one hp' hq'.le ht' hparent)
      obtain ⟨hrest', hext⟩ := ih (h.unlink hq' hparent ht hzero) hfull' hq'.le
        ((hkeep q' le_rfl).trans hparent) (hrest.congr fun p' hp' => hkeep p' hp'.le)
      exact ⟨hrest', hext.trans (h.unlink_extends hq' hparent ht hzero)⟩
    · have hne : ∃ i, m.entry e.table i ≠ 0 := by
        by_contra hall
        push Not at hall
        exact hempty (tableEmpty_iff.mpr fun i _ => hall i)
      exact ⟨⟨h, hfull.full_of_nonempty ht hne⟩, .refl roots m⟩

end

theorem slWalk_lookup (iova : Word) (n : ℕ) (linked : List Link)
    (ht : m.tab roots d p = some table) (htrail : Trail roots m d path p) :
    (slWalk iova false n m table path linked = (m, none) ∧
      m.tab roots d (p ++ digits iova n) = none) ∨
    ∃ t path', slWalk iova false n m table path linked = (m, some (⟨t, slIndex iova 1⟩ :: path')) ∧
      m.tab roots d (p ++ digits iova n) = some t ∧ Trail roots m d path' (p ++ digits iova n) := by
  induction n generalizing p table path with
  | zero =>
    rw [digits, append_nil]
    exact .inr ⟨table, path, rfl, ht, htrail⟩
  | succ n ih =>
    rw [concat_digits]
    have hstep := tab_concat ht (slIndex iova (n + 2))
    cases hnext : nextTable (m.entry table (slIndex iova (n + 2))) with
    | none =>
      refine .inl ⟨slWalk_succ_missing hnext, ?_⟩
      cases hlast : m.tab roots d (p ++ [slIndex iova (n + 2)] ++ digits iova n) with
      | none => rfl
      | some u =>
        obtain ⟨t, ht'⟩ := tab_parent hlast
        rw [hstep, hnext] at ht'
        cases ht'
    | some t =>
      rw [slWalk_succ_found hnext]
      exact ih (hstep.trans hnext) ⟨p, rfl, ht, htrail⟩

/-- The leaves at `as` are gone, with the tables that only they needed. -/
structure Erased (roots : ℕ → Option Word) (m : TableMem) (d : ℕ) (as : List LeafPos)
    (m' : TableMem) : Prop where
  rest : Rest roots m'
  tab : ∀ d' p t, p.length ≤ 3 → m'.tab roots d' p = some t → m.tab roots d' p = some t
  leaf : ∀ d' a, a.1.length = 3 →
    m'.leaf roots d' a = if d' = d ∧ a ∈ as then 0 else m.leaf roots d' a

theorem Erased.refl (h : Rest roots m) (d : ℕ) : Erased roots m d [] m where
  rest := h
  tab _ _ _ _ ht := ht
  leaf d' a _ := by rw [if_neg (fun hmem => not_mem_nil hmem.2)]

theorem Erased.trans {as bs : List LeafPos} {m'' : TableMem} (h : Erased roots m d as m')
    (h' : Erased roots m' d bs m'') : Erased roots m d (as ++ bs) m'' where
  rest := h'.rest
  tab d' p t hp ht := h.tab d' p t hp (h'.tab d' p t hp ht)
  leaf d' a ha := by
    rw [h'.leaf d' a ha, h.leaf d' a ha]
    simp only [mem_append]
    split_ifs <;> first | rfl | (exfalso; tauto)

theorem Erased.foldl {α : Type*} {f : TableMem → α → TableMem} (pos : α → List LeafPos)
    (hstep : ∀ m x, Rest roots m → Erased roots m d (pos x) (f m x)) (h : Rest roots m)
    (xs : List α) : Erased roots m d (xs.flatMap pos) (xs.foldl f m) := by
  induction xs generalizing m with
  | nil => exact .refl h d
  | cons x xs ih =>
    have hx := hstep m x h
    exact hx.trans (ih hx.rest)

theorem Rest.clearLeaf (h : Rest roots m) (hroot : roots d = some root) (iova : Word) :
    Erased roots m d [leafPos iova] (m.clearLeaf root iova) := by
  have hlen : (digits iova 3).length = 3 := digits_length iova 3
  have hstart : Trail roots m d [] [] := rfl
  unfold TableMem.clearLeaf
  obtain ⟨hw, hnone⟩ | ⟨t, path', hw, ht, htrail⟩ := slWalk_lookup iova 3 [] (tab_root hroot) hstart
  · have hw' : slWalk iova false (kSlLevels - 1) m root [] [] = (m, none) := hw
    rw [hw']
    refine ⟨h, fun _ _ _ _ ht => ht, ?_⟩
    intro d' a ha
    split_ifs with hpos
    · obtain ⟨rfl, hmem⟩ := hpos
      rw [mem_singleton] at hmem
      subst hmem
      exact leaf_of_none hnone
    · rfl
  · have hw' : slWalk iova false (kSlLevels - 1) m root [] [] =
        (m, some (⟨t, slIndex iova 1⟩ :: path')) := hw
    rw [hw']
    have htrees := h.trees.writeLeaf hlen ht (slIndex_lt iova 1) 0
    have htab := h.trees.tab_writeLeaf (i := slIndex iova 1) hlen ht 0
    have hfull : FullBut roots (m.write ⟨t, slIndex iova 1⟩ 0) d (digits iova 3) := by
      intro d' p' t' hne hp' ht' hoff
      rw [htab d' p' hp'] at ht'
      obtain ⟨j, hj⟩ := h.full d' p' t' hne hp' ht'
      refine ⟨j, ?_⟩
      rw [write_entry_apply, if_neg]
      · exact hj
      · rintro ⟨rfl, -⟩
        exact hoff (h.trees.one hp' hlen.le ht' ht)
    obtain ⟨hrest, hext⟩ := htrees.cascadeFreeEmpty (e := ⟨t, slIndex iova 1⟩) hfull hlen.le
      ((htab d _ hlen.le).trans ht) (htrail.congr fun p' hp' => htab d p' (hp'.le.trans hlen.le))
    refine ⟨hrest, ?_, ?_⟩
    · intro d' p' t' hp' ht'
      rw [← htab d' p' hp']
      exact hext.tab d' p' t' hp' ht'
    · intro d' a ha
      rw [← hext.leaf d' a ha, h.trees.leaf_writeLeaf hlen ht 0 d' a ha]
      simp only [mem_singleton, leafPos]

def rangePos (phys : Word) (pages : ℕ) : List LeafPos :=
  (List.range pages).map fun p => leafPos (pageAt phys p)

theorem Rest.clearLeaves (h : Rest roots m) (hroot : roots d = some root) (phys : Word)
    (pages : ℕ) : Erased roots m d (rangePos phys pages) (m.clearLeaves root phys pages) := by
  have hall := Erased.foldl (fun p => [leafPos (pageAt phys p)])
    (fun m p hm => hm.clearLeaf hroot (pageAt phys p)) h (List.range pages)
  rw [← map_eq_flatMap] at hall
  exact hall

theorem Rest.exists_leaf (h : Rest roots m) (k : ℕ) (hk : p.length + k = 3)
    (hne : p ≠ []) (ht : m.tab roots d p = some t) :
    ∃ a : LeafPos, a.1.length = 3 ∧ p <+: a.1 ∧ m.leaf roots d a ≠ 0 := by
  induction k generalizing p t with
  | zero =>
    obtain ⟨i, hi⟩ := h.full d p t hne hk.le ht
    exact ⟨(p, i), hk, prefix_rfl, leaf_of_some (a := (p, i)) ht ▸ hi⟩
  | succ k ih =>
    have hp : p.length < 3 := by omega
    obtain ⟨i, hi⟩ := h.full d p t hne hp.le ht
    have hnext : nextTable (m.entry t i) = some (m.entry t i) := by
      rw [nextTable_eq_some, h.trees.links d p t i hp ht]
      exact ⟨hi, rfl⟩
    have hlen : (p ++ [i]).length + k = 3 := by
      rw [length_append, length_singleton]
      omega
    obtain ⟨a, ha, hpre, hleaf⟩ := ih hlen (by simp) ((tab_concat ht i).trans hnext)
    exact ⟨a, ha, (prefix_append p [i]).trans hpre, hleaf⟩

section

variable {m₁ m₂ : TableMem} (h₁ : Rest roots m₁)
  (hleaf : ∀ d a, a.1.length = 3 → m₁.leaf roots d a = m₂.leaf roots d a)
  (hin₁ : ∀ d p t, p.length ≤ 3 → m₁.tab roots d p = some t → m.tab roots d p = some t)
  (hin₂ : ∀ d p t, p.length ≤ 3 → m₂.tab roots d p = some t → m.tab roots d p = some t)
include h₁ hleaf hin₁ hin₂

theorem Rest.tab_of_leaf (hp : p.length ≤ 3) (ht : m₁.tab roots d p = some t) :
    m₂.tab roots d p = some t := by
  by_cases hnil : p = []
  · subst hnil
    exact ht
  obtain ⟨a, ha, ⟨r, hr⟩, hne⟩ := h₁.exists_leaf (3 - p.length) (by omega) hnil ht
  rw [hleaf d a ha] at hne
  have hsome : ∃ u, m₂.tab roots d a.1 = some u := by
    cases hu : m₂.tab roots d a.1 with
    | none => exact absurd (leaf_of_none hu) hne
    | some u => exact ⟨u, rfl⟩
  obtain ⟨u, hu⟩ := hsome
  rw [← hr] at hu
  obtain ⟨t', ht'⟩ := tab_parent hu
  have heq : t' = t := Option.some.inj ((hin₂ d p t' hp ht').symm.trans (hin₁ d p t hp ht))
  rw [ht', heq]

theorem Rest.held_of_leaf (h₂ : Rest roots m₂) : m₁.held = m₂.held := by
  funext t
  rw [Bool.eq_iff_iff, h₁.trees.held t, h₂.trees.held t]
  constructor
  all_goals rintro ⟨d, p, hp, ht⟩
  · exact ⟨d, p, hp, h₁.tab_of_leaf hleaf hin₁ hin₂ hp ht⟩
  · exact ⟨d, p, hp, h₂.tab_of_leaf (fun d a ha => (hleaf d a ha).symm) hin₂ hin₁ hp ht⟩

end

def leafValue (iova : Word) (slFlags : BitVec 32) : Word :=
  iova &&& kSlEntryAddrMask ||| slFlags.setWidth 64

theorem leafValue_ne_zero {slFlags : BitVec 32} (h : slFlags ≠ 0) (iova : Word) :
    leafValue iova slFlags ≠ 0 := by
  intro hz
  have hflags := (BitVec.or_eq_zero_iff.mp hz).2
  apply h
  apply BitVec.eq_of_toNat_eq
  have hnat := congrArg BitVec.toNat hflags
  rw [BitVec.toNat_setWidth] at hnat
  rw [Nat.mod_eq_of_lt (by omega)] at hnat
  exact hnat

/-- The leaves of the first `k` pages of a range are in place, and nothing else has changed. -/
structure Mapped (roots : ℕ → Option Word) (m₀ : TableMem) (d : ℕ) (phys : Word)
    (slFlags : BitVec 32) (k : ℕ) (m : TableMem) : Prop where
  rest : Rest roots m
  tab : ∀ d p t, p.length ≤ 3 → m₀.tab roots d p = some t → m.tab roots d p = some t
  set : ∀ j < k, m.leaf roots d (leafPos (pageAt phys j)) = leafValue (pageAt phys j) slFlags
  kept : ∀ d' a, a.1.length = 3 → ¬ (d' = d ∧ a ∈ rangePos phys k) →
    m.leaf roots d' a = m₀.leaf roots d' a

theorem mem_rangePos {phys : Word} {k : ℕ} {a : LeafPos} :
    a ∈ rangePos phys k ↔ ∃ j < k, leafPos (pageAt phys j) = a := by
  simp only [rangePos, mem_map, mem_range]

theorem Rest.write {slFlags : BitVec 32} (h : Trees roots m)
    (hfull : FullBut roots m d (digits iova 3))
    (ht : m.tab roots d (digits iova 3) = some t) (hflags : slFlags ≠ 0) :
    Rest roots (m.write ⟨t, slIndex iova 1⟩ (leafValue iova slFlags)) := by
  have hlen := digits_length iova 3
  have htab := h.tab_writeLeaf (i := slIndex iova 1) hlen ht (leafValue iova slFlags)
  refine ⟨h.writeLeaf hlen ht (slIndex_lt iova 1) _, ?_⟩
  intro d' p' t' hne hp' ht'
  rw [htab d' p' hp'] at ht'
  by_cases hpos : t' = t
  · refine ⟨slIndex iova 1, ?_⟩
    rw [write_entry_apply, if_pos ⟨hpos, rfl⟩]
    exact leafValue_ne_zero hflags iova
  have hoff : ¬ (d' = d ∧ p' = digits iova 3) := by
    rintro ⟨rfl, rfl⟩
    exact hpos (Option.some.inj (ht'.symm.trans ht))
  obtain ⟨j, hj⟩ := hfull d' p' t' hne hp' ht' hoff
  refine ⟨j, ?_⟩
  rw [write_entry_apply, if_neg (fun heq => hpos heq.1)]
  exact hj

section mapPages

variable {phys : Word} {slFlags : BitVec 32} {k total : ℕ}

theorem Mapped.succ (hm : Mapped roots m₀ d phys slFlags k m) (hflags : slFlags ≠ 0)
    (hinj : ∀ j < k, leafPos (pageAt phys j) ≠ leafPos (pageAt phys k)) {t : Word}
    (htrees : Trees roots m') (hfull : FullBut roots m' d (digits (pageAt phys k) 3))
    (ht : m'.tab roots d (digits (pageAt phys k) 3) = some t) (hext : Extends roots m m') :
    Mapped roots m₀ d phys slFlags (k + 1)
      (m'.write ⟨t, slIndex (pageAt phys k) 1⟩ (leafValue (pageAt phys k) slFlags)) := by
  have hlen := digits_length (pageAt phys k) 3
  have hleaf := htrees.leaf_writeLeaf (i := slIndex (pageAt phys k) 1) hlen ht
    (leafValue (pageAt phys k) slFlags)
  refine ⟨.write htrees hfull ht hflags, ?_, ?_, ?_⟩
  · intro d' p u hp hu
    rw [htrees.tab_writeLeaf hlen ht _ d' p hp]
    exact hext.tab d' p u hp (hm.tab d' p u hp hu)
  · intro j hj
    rw [hleaf d _ (digits_length _ 3)]
    by_cases hjk : j = k
    · subst hjk
      rw [if_pos ⟨rfl, rfl⟩]
    · have hlt : j < k := by omega
      rw [if_neg (fun heq => hinj j hlt heq.2), hext.leaf d _ (digits_length _ 3), hm.set j hlt]
  · intro d' a ha hoff
    rw [hleaf d' a ha, if_neg, hext.leaf d' a ha]
    · apply hm.kept d' a ha
      rintro ⟨hd, hmem⟩
      obtain ⟨j, hj, hpos⟩ := mem_rangePos.mp hmem
      exact hoff ⟨hd, mem_rangePos.mpr ⟨j, by omega, hpos⟩⟩
    · rintro ⟨hd, rfl⟩
      exact hoff ⟨hd, mem_rangePos.mpr ⟨k, by omega, rfl⟩⟩

theorem Mapped.undo (hm : Mapped roots m₀ d phys slFlags k m) (h₀ : Rest roots m₀)
    (hroot : roots d = some root)
    (hfresh : ∀ j < k, m₀.leaf roots d (leafPos (pageAt phys j)) = 0) (hs : Same m m') :
    Rest roots (m'.clearLeaves root phys k) ∧ (m'.clearLeaves root phys k).held = m₀.held ∧
      ∀ d' a, a.1.length = 3 → (m'.clearLeaves root phys k).leaf roots d' a = m₀.leaf roots d' a := by
  have htab := hm.rest.trees.tab_same hs
  have hrest : Rest roots m' := by
    refine ⟨hm.rest.trees.same hs, ?_⟩
    intro d' p u hne hp hu
    rw [htab d' p hp] at hu
    rw [hs.entry u (hm.rest.trees.mem_held hp hu)]
    exact hm.rest.full d' p u hne hp hu
  have her := hrest.clearLeaves hroot phys k
  have hleaf : ∀ d' a, a.1.length = 3 →
      (m'.clearLeaves root phys k).leaf roots d' a = m₀.leaf roots d' a := by
    intro d' a ha
    rw [her.leaf d' a ha]
    split_ifs with hpos
    · obtain ⟨rfl, hmem⟩ := hpos
      obtain ⟨j, hj, rfl⟩ := mem_rangePos.mp hmem
      exact (hfresh j hj).symm
    · rw [hm.rest.trees.leaf_same hs d' a ha, hm.kept d' a ha hpos]
  refine ⟨her.rest, ?_, hleaf⟩
  refine her.rest.held_of_leaf hleaf (fun d' p u hp hu => ?_) hm.tab h₀
  rw [← htab d' p hp]
  exact her.tab d' p u hp hu

/-- The loop of `map_frame` maps all pages or leaves leaves and held pages as they were. -/
theorem Mapped.mapPages (h₀ : Rest roots m₀) (hroot : roots d = some root) (hflags : slFlags ≠ 0)
    (hinj : ∀ i < total, ∀ j < total, leafPos (pageAt phys i) = leafPos (pageAt phys j) → i = j)
    (hfresh : ∀ j < total, m₀.leaf roots d (leafPos (pageAt phys j)) = 0) (n : ℕ)
    (hn : k + n = total) (hm : Mapped roots m₀ d phys slFlags k m) :
    (∃ m', mapPages root phys slFlags k n m = (m', true) ∧
      Mapped roots m₀ d phys slFlags total m') ∨
    ∃ m', mapPages root phys slFlags k n m = (m', false) ∧ Rest roots m' ∧ m'.held = m₀.held ∧
      ∀ d' a, a.1.length = 3 → m'.leaf roots d' a = m₀.leaf roots d' a := by
  induction n generalizing k m with
  | zero =>
    have hk : k = total := by omega
    subst hk
    exact .inl ⟨m, rfl, hm⟩
  | succ n ih =>
    have hundo : Same m (m.unwind []) := .refl m
    have hwalk := hm.rest.trees.slWalk_alloc (n := 3) (pageAt phys k) []
      (hm.rest.full.fullBut d []) (tab_root hroot) rfl hundo
    unfold TableMem.mapPages
    obtain ⟨m', hw, hs⟩ | ⟨m', t, path', hw, htrees, hfull, ht, hext⟩ := hwalk
    · have hw' : slWalk (pageAt phys k) true (kSlLevels - 1) m root [] [] = (m', none) := hw
      rw [hw']
      exact .inr ⟨_, rfl, hm.undo h₀ hroot (fun j hj => hfresh j (by omega)) hs⟩
    have hw' : slWalk (pageAt phys k) true (kSlLevels - 1) m root [] [] =
        (m', some (⟨t, slIndex (pageAt phys k) 1⟩ :: path')) := hw
    rw [hw']
    apply ih (by omega)
    apply hm.succ hflags _ htrees hfull ht hext
    intro j hj heq
    exact hj.ne (hinj j (by omega) k (by omega) heq)

end mapPages

variable {page : Word} {free : List Word}

theorem Rest.addRoot (h : Rest roots m) (hnone : roots d = none) (hfree : m.free = page :: free) :
    Rest (update roots d (some page)) m.allocZeroedTablePage.1 ∧
      ∀ d' a, a.1.length = 3 →
        m.allocZeroedTablePage.1.leaf (update roots d (some page)) d' a = m.leaf roots d' a := by
  have htab : ∀ d' p, p ≠ [] → p.length ≤ 3 →
      m.allocZeroedTablePage.1.tab (update roots d (some page)) d' p =
        m.tab roots d' p := by
    intro d' p hne hp
    rw [h.trees.tab_addRoot hnone hfree d' p hp, if_neg (fun heq => hne heq.2)]
  have hentry : ∀ d' p t, p.length ≤ 3 → m.tab roots d' p = some t →
      m.allocZeroedTablePage.1.entry t = m.entry t := by
    intro d' p t hp ht
    rw [alloc_of_free hfree]
    exact update_of_ne (h.trees.ne_page hfree hp ht) _ _
  refine ⟨⟨h.trees.addRoot hnone hfree, ?_⟩, ?_⟩
  · intro d' p t hne hp ht
    rw [htab d' p hne hp] at ht
    rw [hentry d' p t hp ht]
    exact h.full d' p t hne hp ht
  · intro d' a ha
    have hne : a.1 ≠ [] := ne_nil_of_length_pos (by omega)
    exact leaf_congr (htab d' a.1 hne ha.le) fun t ht => hentry d' a.1 t ha.le ht

variable (h : Rest roots m) (hroot : roots d = some root)
  (hleaf : ∀ a, a.1.length = 3 → m.leaf roots d a = 0)
include h hroot hleaf

theorem Rest.root_empty (j : ℕ) : m.entry root j = 0 := by
  cases hnext : nextTable (m.entry root j) with
  | none => exact h.trees.entry_eq_zero (p := []) (by decide) (tab_root hroot) hnext
  | some t =>
    have ht : m.tab roots d ([] ++ [j]) = some t := (tab_concat (tab_root hroot) j).trans hnext
    obtain ⟨a, ha, -, hne⟩ := h.exists_leaf 2 rfl (cons_ne_nil j []) ht
    exact absurd (hleaf a ha) hne

theorem Rest.dropRoot : Rest (update roots d none) (m.freePage root) ∧
      (∀ d' p t, (m.freePage root).tab (update roots d none) d' p = some t →
        d' ≠ d ∧ m.tab roots d' p = some t) ∧
      ∀ d' a, a.1.length = 3 →
        (m.freePage root).leaf (update roots d none) d' a = m.leaf roots d' a := by
  have hempty := h.root_empty hroot hleaf
  have htab := Trees.tab_dropRoot hroot hempty
  refine ⟨⟨h.trees.dropRoot hroot hempty, ?_⟩, ?_, ?_⟩
  · intro d' p t hne hp ht
    rw [htab d' p, if_neg (fun heq => hne heq.2)] at ht
    exact h.full d' p t hne hp ht
  · intro d' p t ht
    constructor
    · rintro rfl
      rw [tab, Radix.tab, update_self] at ht
      cases ht
    · rw [htab d' p] at ht
      split_ifs at ht
      exact ht
  · intro d' a ha
    have hne : a.1 ≠ [] := ne_nil_of_length_pos (by omega)
    have hsame := htab d' a.1
    rw [if_neg (fun heq => hne heq.2)] at hsame
    exact leaf_congr hsame fun _ _ => rfl

end Nexios.Iommu.TableMem
