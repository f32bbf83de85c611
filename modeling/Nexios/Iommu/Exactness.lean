import Nexios.Iommu.Isolation
import Nexios.Iommu.TableWalk

/-!
# The tables and the mapping records

The leaves under the root of a domain are the pages of its mapping records, and the held pages are
the tables of the living domains. Ranges are below `2 ^ 48`, so that the four indices of a walk
determine a page.
-/

open Function Option List Nat

namespace Nexios.Iommu

open TableMem IommuState

/-! ### Page addresses and indices -/

theorem slIndex_eq (iova : Word) (level : ℕ) :
    slIndex iova level = iova.toNat / 2 ^ (12 + 9 * (level - 1)) % 512 := by
  have hmask : (0x1FF#64).toNat = 2 ^ 9 - 1 := rfl
  rw [slIndex, BitVec.toNat_and, BitVec.toNat_ushiftRight, shiftRight_eq_div_pow]
  exact hmask ▸ and_two_pow_sub_one_eq_mod _ 9

theorem aligned_iff {p : Word} : Aligned p ↔ p.toNat % 4096 = 0 := by
  have hand : (p &&& 0xFFF#64).toNat = p.toNat % 4096 := by
    exact and_two_pow_sub_one_eq_mod _ 12
  constructor
  · intro h
    rw [← hand, show p &&& 0xFFF#64 = 0#64 from h]
    rfl
  · intro h
    apply BitVec.eq_of_toNat_eq
    exact hand.trans h

theorem leafPos_inj {x y : Word} (hx : Aligned x) (hy : Aligned y) (hx' : x.toNat < 2 ^ 48)
    (hy' : y.toNat < 2 ^ 48) (h : leafPos x = leafPos y) : x = y := by
  simp only [leafPos, digits, Prod.mk.injEq, List.cons.injEq, slIndex_eq] at h
  rw [aligned_iff] at hx hy
  apply BitVec.eq_of_toNat_eq
  omega

theorem pageAt_toNat {phys : Word} {pages j : ℕ} (h : phys.toNat + pages * 4096 ≤ 2 ^ 48)
    (hj : j < pages) : (pageAt phys j).toNat = phys.toNat + j * 4096 := by
  have hsize : pageSize.toNat = 4096 := rfl
  rw [pageAt, BitVec.toNat_add, BitVec.toNat_mul, BitVec.toNat_ofNat, hsize]
  omega

theorem rangeEnd_toNat {phys : Word} {pages : ℕ} (h : phys.toNat + pages * 4096 ≤ 2 ^ 48) :
    (rangeEnd phys pages).toNat = phys.toNat + pages * 4096 := by
  have hsize : pageSize.toNat = 4096 := rfl
  rw [rangeEnd, BitVec.toNat_add, BitVec.toNat_mul, BitVec.toNat_ofNat, hsize]
  omega

/-! ### The invariant -/

def Below (phys : Word) (pages : ℕ) : Prop := phys.toNat + pages * 4096 ≤ 2 ^ 48
  deriving Decidable

namespace IoMmuMapping

/-- The page at `iova` is one of the mapping. -/
def Covers (r : IoMmuMapping) (iova : Word) : Prop :=
  r.phys.toNat ≤ iova.toNat ∧ iova.toNat < r.phys.toNat + r.pages * 4096

/-- What `map_frame` checks before it records a mapping. -/
structure Fits (r : IoMmuMapping) : Prop where
  aligned : Aligned r.phys
  below : Below r.phys r.pages
  flags : r.slFlags ≠ 0

def Apart (r r' : IoMmuMapping) : Prop :=
  r.phys.toNat + r.pages * 4096 ≤ r'.phys.toNat ∨ r'.phys.toNat + r'.pages * 4096 ≤ r.phys.toNat

variable {r r' : IoMmuMapping} {j k : ℕ} {iova : Word}

section

variable (h : r.Fits) (hj : j < r.pages)
include h hj

theorem Fits.page_toNat : (pageAt r.phys j).toNat = r.phys.toNat + j * 4096 :=
  pageAt_toNat h.below hj

theorem Fits.page_aligned : Aligned (pageAt r.phys j) := by
  have hphys := aligned_iff.mp h.aligned
  rw [aligned_iff, h.page_toNat hj]
  omega

theorem Fits.page_below : (pageAt r.phys j).toNat < 2 ^ 48 := by
  have hle : r.phys.toNat + r.pages * 4096 ≤ 2 ^ 48 := h.below
  rw [h.page_toNat hj]
  omega

end

theorem Fits.leafPos_eq (h : r.Fits) (h' : r'.Fits) (hj : j < r.pages) (hk : k < r'.pages)
    (heq : leafPos (pageAt r.phys j) = leafPos (pageAt r'.phys k)) :
    r.phys.toNat + j * 4096 = r'.phys.toNat + k * 4096 := by
  have hpage := leafPos_inj (h.page_aligned hj) (h'.page_aligned hk) (h.page_below hj)
    (h'.page_below hk) heq
  rw [← h.page_toNat hj, ← h'.page_toNat hk, hpage]

theorem Apart.leafPos_ne (hap : r.Apart r') (h : r.Fits) (h' : r'.Fits) (hj : j < r.pages)
    (hk : k < r'.pages) : leafPos (pageAt r.phys j) ≠ leafPos (pageAt r'.phys k) := by
  intro heq
  have hnat := h.leafPos_eq h' hj hk heq
  unfold Apart at hap
  omega

theorem Fits.covers_iff (h : r.Fits) (hal : Aligned iova) :
    r.Covers iova ↔ ∃ j < r.pages, pageAt r.phys j = iova := by
  constructor
  · rintro ⟨hlo, hhi⟩
    have hphys := aligned_iff.mp h.aligned
    rw [aligned_iff] at hal
    refine ⟨(iova.toNat - r.phys.toNat) / 4096, by omega, ?_⟩
    apply BitVec.eq_of_toNat_eq
    rw [h.page_toNat (by omega)]
    omega
  · rintro ⟨j, hj, rfl⟩
    rw [Covers, h.page_toNat hj]
    omega

end IoMmuMapping

namespace IommuState

abbrev record (s : IommuState) (d m : ℕ) : IoMmuMapping := (s.domains d).maps m

def roots (s : IommuState) (d : ℕ) : Option Word :=
  if d < maxDomains ∧ (s.domains d).occupied = true then some (s.domains d).slRootPhys else none

/-- The leaf entry that a walk for `iova` ends at. -/
def leafOf (s : IommuState) (d : ℕ) (iova : Word) : Word := s.mem.leaf s.roots d (leafPos iova)

/-- `t` is a table under the root of the domain. -/
def Owns (s : IommuState) (d : ℕ) (t : Word) : Prop :=
  ∃ p, p.length ≤ 3 ∧ s.mem.tab s.roots d p = some t

end IommuState

open IommuState

/-- The leaves are those of the records. -/
structure ExactInv (s : IommuState) : Prop where
  rest : Rest s.roots s.mem
  idle : ∀ d, (s.domains d).occupied = false → ∀ m, (s.record d m).occupied = false
  slots : ∀ d m, (s.record d m).occupied → m < maxMappings
  fits : ∀ d m, (s.record d m).occupied → (s.record d m).Fits
  apart : ∀ d m m', m ≠ m' → (s.record d m).occupied → (s.record d m').occupied →
    (s.record d m).Apart (s.record d m')
  set : ∀ d m j, d < maxDomains → (s.record d m).occupied → j < (s.record d m).pages →
    s.mem.leaf s.roots d (leafPos (pageAt (s.record d m).phys j)) =
      leafValue (pageAt (s.record d m).phys j) (s.record d m).slFlags
  only : ∀ d a, a.1.length = 3 → s.mem.leaf s.roots d a ≠ 0 →
    ∃ m, (s.record d m).occupied = true ∧ a ∈ rangePos (s.record d m).phys (s.record d m).pages

variable {s : IommuState} {d : ℕ} {idx : ℤ}

theorem roots_congr {u : IommuState} (h : ∀ d, (u.domains d).occupied = (s.domains d).occupied ∧
    (u.domains d).slRootPhys = (s.domains d).slRootPhys) : u.roots = s.roots := by
  funext d
  rw [roots, roots, (h d).1, (h d).2]

theorem roots_of_occupied (hd : d < maxDomains)
    (hocc : (s.domains d).occupied) : s.roots d = some (s.domains d).slRootPhys :=
  if_pos ⟨hd, hocc⟩

namespace ExactInv

variable {s u : IommuState} {x : IoMmuMapping} {fc : FrameCap} {i rec : ℕ} {mem : TableMem}
  {free : List Word} {roots : ℕ → Option Word}

theorem init : ExactInv {} := by
  have hroots : ∀ d, roots {} d = none := fun d => if_neg (fun h => Bool.false_ne_true h.2)
  have htab : ∀ d p, TableMem.tab {} (roots {}) d p = none := by
    intro d p
    rw [TableMem.tab, Radix.tab, hroots, bind_none]
  constructor
  case rest =>
    have hno : ∀ {d p t}, TableMem.tab {} (roots {}) d p ≠ some t :=
      fun {d p t} => htab d p ▸ some_ne_none t |>.symm
    refine ⟨⟨fun _ _ ht => absurd ht hno, fun t => ?_, fun _ _ _ _ _ ht => absurd ht hno,
      fun _ _ _ _ => rfl, fun _ ht => absurd ht Bool.false_ne_true,
      fun _ ht => absurd ht not_mem_nil, nodup_nil, rfl⟩, fun _ _ _ _ _ ht => absurd ht hno⟩
    refine iff_of_false Bool.false_ne_true ?_
    rintro ⟨d, p, -, ht⟩
    exact hno ht
  case only =>
    intro d a _ hne
    exact absurd (leaf_of_none (htab d a.1)) hne
  case idle => exact fun _ _ _ => rfl
  all_goals
    intros
    exact absurd ‹_› Bool.false_ne_true

section

variable (h : ExactInv s)
include h

theorem congr (hd : u.domains = s.domains) (hm : u.mem = s.mem) : ExactInv u := by
  cases u
  cases hd
  cases hm
  exact { h with }

theorem setMem (hrest : Rest s.roots mem)
    (hleaf : ∀ d a, a.1.length = 3 → mem.leaf s.roots d a = s.mem.leaf s.roots d a) :
    ExactInv { s with mem := mem } where
  __ := h
  rest := hrest
  set d m j hd hocc hj := (hleaf d _ (digits_length _ 3)).trans (h.set d m j hd hocc hj)
  only d a ha hne := h.only d a ha (hleaf d a ha ▸ hne)

theorem pmm (hfree : Allocatable s.mem free) :
    ExactInv { s with mem := { s.mem with free := free } } := by
  refine h.setMem ⟨?_, h.rest.full⟩ (fun _ _ _ => rfl)
  exact { h.rest.trees with
    free := fun t ht => ⟨(hfree.2 t ht).1, (hfree.2 t ht).2.2⟩
    nodup := hfree.1 }

/-- Records go, and none comes or changes. -/
theorem keep (hrest : Rest u.roots u.mem)
    (hidle : ∀ d, (u.domains d).occupied = false → ∀ m, (u.record d m).occupied = false)
    (hsub : ∀ {d m}, (u.record d m).occupied → u.record d m = s.record d m)
    (hleaf : ∀ d m j, (u.record d m).occupied → j < (s.record d m).pages →
      u.mem.leaf u.roots d (leafPos (pageAt (s.record d m).phys j)) =
        s.mem.leaf s.roots d (leafPos (pageAt (s.record d m).phys j)))
    (honly : ∀ d a, a.1.length = 3 → u.mem.leaf u.roots d a ≠ 0 →
      ∃ m, (u.record d m).occupied = true ∧ a ∈ rangePos (u.record d m).phys (u.record d m).pages) :
    ExactInv u where
  rest := hrest
  idle := hidle
  slots d m hocc := h.slots d m (hsub hocc ▸ hocc)
  fits d m hocc := hsub hocc ▸ h.fits d m (hsub hocc ▸ hocc)
  apart d m m' hne hocc hocc' := by
    have hap := h.apart d m m' hne (hsub hocc ▸ hocc) (hsub hocc' ▸ hocc')
    rwa [← hsub hocc, ← hsub hocc'] at hap
  set d m j hd hocc hj := by
    have hset := h.set d m j hd (hsub hocc ▸ hocc) (hsub hocc ▸ hj)
    rw [← hleaf d m j hocc (hsub hocc ▸ hj)] at hset
    rwa [← hsub hocc] at hset
  only := honly

theorem setRoot {x : IoMmuDomain}
    (hu : u.domains = update s.domains i x) (hidle : ∀ m, (x.maps m).occupied = false)
    (hrest : Rest u.roots u.mem)
    (hkept : ∀ d a, d ≠ i → a.1.length = 3 → u.mem.leaf u.roots d a = s.mem.leaf s.roots d a)
    (hgone : ∀ a, a.1.length = 3 → u.mem.leaf u.roots i a = 0) : ExactInv u := by
  have hdom : ∀ d m, (u.record d m).occupied → d ≠ i ∧ u.domains d = s.domains d := by
    intro d m hocc
    unfold record at hocc
    rw [hu] at hocc ⊢
    by_cases hd : d = i
    · subst hd
      rw [update_self, hidle] at hocc
      cases hocc
    · exact ⟨hd, update_of_ne hd _ _⟩
  refine h.keep hrest ?idle (fun {d m} hocc => by rw [record, (hdom d m hocc).2])
    (fun d m j hocc _ => hkept d _ (hdom d m hocc).1 (digits_length _ 3)) ?only
  case idle =>
    intro d hfree m
    by_contra hocc
    rw [Bool.not_eq_false] at hocc
    rw [(hdom d m hocc).2] at hfree
    rw [record, (hdom d m hocc).2, h.idle d hfree m] at hocc
    cases hocc
  case only =>
    intro d a ha hne
    have hd : d ≠ i := by
      rintro rfl
      exact hne (hgone a ha)
    unfold record
    rw [hu, update_of_ne hd]
    exact h.only d a ha (hkept d a hd ha ▸ hne)

end

theorem roots_update {x : IoMmuDomain} (hu : u.domains = update s.domains i x)
    (hi : i < maxDomains) :
    u.roots = update s.roots i (if x.occupied = true then some x.slRootPhys else none) := by
  refine eq_update_iff.mpr ⟨?_, fun d hd => ?_⟩
  · rw [roots, hu, update_self]
    simp only [hi, true_and]
  · rw [roots, hu, update_of_ne hd, roots]

theorem created (h : ExactInv s) {x : IoMmuDomain} {page : Word} (hi : i < maxDomains)
    (hvacant : (s.domains i).occupied = false) (hfree : s.mem.free = page :: free)
    (hu : u.domains = update s.domains i x) (hmem : u.mem = s.mem.allocZeroedTablePage.1)
    (hocc : x.occupied) (hroot : x.slRootPhys = page) (hmaps : x.maps = (s.domains i).maps) :
    ExactInv u := by
  have hnone : s.roots i = none := by
    rw [roots, hvacant]
    exact if_neg (fun heq => Bool.false_ne_true heq.2)
  have hroots := roots_update hu hi
  rw [if_pos hocc, hroot] at hroots
  obtain ⟨hrest, hleaf⟩ := h.rest.addRoot hnone hfree
  apply h.setRoot hu
  · rw [hmaps]
    exact h.idle i hvacant
  · rw [hroots, hmem]
    exact hrest
  · intro d a _ ha
    rw [hroots, hmem]
    exact hleaf d a ha
  · intro a ha
    rw [hroots, hmem, hleaf i a ha]
    apply leaf_of_none
    rw [TableMem.tab, Radix.tab, hnone, bind_none]

theorem alloc_zero_of_trees {m : TableMem} (h : Trees roots m)
    (hzero : m.allocZeroedTablePage.2 = 0) : m.allocZeroedTablePage.1 = m := by
  cases hfree : m.free with
  | nil => rw [allocZeroedTablePage, hfree]
  | cons page rest =>
    rw [alloc_of_free hfree] at hzero
    exact absurd hzero (h.not_held_of_free hfree).1

theorem domainCreate (h : ExactInv s) (taskId : ℕ) : ExactInv (s.domainCreate taskId).1 := by
  unfold IommuState.domainCreate
  split_ifs
  · exact h
  split
  · exact h
  rename_i i hi
  obtain ⟨hlt, hvacant⟩ := IsoInv.freeDomain_eq_some hi
  simp only
  split_ifs with hzero
  · rw [alloc_zero_of_trees h.rest.trees hzero]
    exact h
  cases hfree : s.mem.free with
  | nil =>
    rw [allocZeroedTablePage, hfree] at hzero
    exact absurd rfl hzero
  | cons page rest =>
    apply h.created hlt hvacant hfree
    case hu => rfl
    case hroot => rw [alloc_of_free hfree]
    all_goals rfl

/-! ### Destroying a domain -/

def recordPos (d : IoMmuDomain) (m : ℕ) : List LeafPos :=
  if (d.maps m).occupied = true then rangePos (d.maps m).phys (d.maps m).pages else []

theorem clearMaps_erased (h : Rest roots mem) {x : IoMmuDomain}
    (hroot : roots d = some x.slRootPhys) :
    Erased roots mem d ((List.range maxMappings).flatMap (recordPos x)) (clearMaps mem x) := by
  apply Erased.foldl (recordPos x) _ h
  intro m r hm
  unfold recordPos
  split_ifs
  · exact hm.clearLeaves hroot _ _
  · exact .refl hm d

theorem clearRecords_idle (h : ExactInv s) (d m : ℕ) :
    (clearRecords (s.domains d).maps m).occupied = false := by
  unfold clearRecords
  split_ifs with hocc
  · rfl
  · rw [← Bool.not_eq_true]
    exact fun htrue => hocc ⟨h.slots d m htrue, htrue⟩

theorem destroyed (h : ExactInv s) (hrange : inRange idx)
    (hocc : (s.domains idx.toNat).occupied) : ExactInv (s.domainDestroy idx) ∧ ∀ d' p t,
      (s.domainDestroy idx).mem.tab (s.domainDestroy idx).roots d' p = some t → p.length ≤ 3 →
        d' ≠ idx.toNat ∧ s.mem.tab s.roots d' p = some t := by
  have hlt := hrange.toNat_lt
  generalize hi : idx.toNat = i at hlt hocc ⊢
  have hroot := roots_of_occupied hlt hocc
  have her := clearMaps_erased h.rest hroot
  have hgone : ∀ a, a.1.length = 3 →
      (clearMaps s.mem (s.domains i)).leaf s.roots i a = 0 := by
    intro a ha
    rw [her.leaf _ a ha]
    split_ifs with hmem
    · rfl
    by_contra hne
    obtain ⟨m, hm, hin⟩ := h.only _ a ha hne
    apply hmem
    refine ⟨rfl, mem_flatMap.mpr ⟨m, mem_range.mpr (h.slots _ m hm), ?_⟩⟩
    rw [recordPos, if_pos hm]
    exact hin
  obtain ⟨hrest, htab, hleaf⟩ := her.rest.dropRoot hroot hgone
  have hne : (s.domains i).slRootPhys ≠ 0 :=
    (h.rest.trees.pages _ (h.rest.trees.mem_held (p := []) (by decide) (tab_root hroot))).1
  have hunfold : s.domainDestroy idx = { s.setDomain i
      { serial := (s.domains i).serial, maps := clearRecords (s.domains i).maps } with
      mem := (clearMaps s.mem (s.domains i)).freePage (s.domains i).slRootPhys } := by
    unfold domainDestroy
    rw [if_neg (not_not.mpr hrange)]
    simp only [hi, hocc, Bool.true_eq_false, if_false, if_pos hne]
  have hdom : (s.domainDestroy idx).domains = update s.domains i
      { serial := (s.domains i).serial, maps := clearRecords (s.domains i).maps } := by
    rw [hunfold]
    rfl
  have hmem : (s.domainDestroy idx).mem =
      (clearMaps s.mem (s.domains i)).freePage (s.domains i).slRootPhys := by
    rw [hunfold]
  have hroots : (s.domainDestroy idx).roots = update s.roots i none := roots_update hdom hlt
  constructor
  · apply h.setRoot hdom
    · exact h.clearRecords_idle i
    · rw [hroots, hmem]
      exact hrest
    · intro d a hd ha
      rw [hroots, hmem, hleaf d a ha, her.leaf d a ha, if_neg (fun heq => hd heq.1)]
    · intro a ha
      rw [hroots, hmem, hleaf _ a ha, hgone a ha]
  · intro d' p t ht hp
    rw [hroots, hmem] at ht
    obtain ⟨hd, ht⟩ := htab d' p t ht
    exact ⟨hd, her.tab d' p t hp ht⟩

theorem domainDestroy (h : ExactInv s) (idx : ℤ) : ExactInv (s.domainDestroy idx) := by
  rcases IsoInv.domainDestroy_cases s idx with heq | ⟨hrange, hocc, -⟩
  · rw [heq]
    exact h
  · exact (h.destroyed hrange hocc).1

/-! ### Mapping and unmapping -/

theorem root_setMap {m : ℕ}
    (hu : u.domains = update s.domains i (setMap (s.domains i) m x)) (d : ℕ) :
    (u.domains d).occupied = (s.domains d).occupied ∧
      (u.domains d).slRootPhys = (s.domains d).slRootPhys := by
  rw [hu]
  exact ⟨update_field IoMmuDomain.occupied (by rfl) d,
    update_field IoMmuDomain.slRootPhys (by rfl) d⟩

theorem maps_setMap (hu : u.domains = update s.domains i (setMap (s.domains i) rec x)) (d m : ℕ) :
    u.record d m = if d = i ∧ m = rec then x else s.record d m := by
  rw [record, hu]
  by_cases hd : d = i
  · subst hd
    simp only [setMap, update_self, update_apply, true_and]
  · rw [update_of_ne hd, if_neg (fun heq => hd heq.1)]

/-- What `map_frame` knows when it has found a record to use. -/
structure Mappable (s : IommuState) (i rec : ℕ) (x : IoMmuMapping) : Prop where
  domain : i < maxDomains
  occupied : (s.domains i).occupied = true
  slot : rec < maxMappings
  vacant : (s.record i rec).occupied = false
  fits : x.Fits
  apart : ∀ m, (s.record i m).occupied → (s.record i m).Apart x

theorem apart_of_not_overlaps {d : IoMmuDomain} (h : overlaps d fc = false)
    (hb : Below fc.phys fc.count) {m : ℕ} (hm : m < maxMappings) (hocc : (d.maps m).occupied)
    (hfits : (d.maps m).Fits) (hphys : x.phys = fc.phys)
    (hpages : x.pages = fc.count) : (d.maps m).Apart x := by
  have hno := any_eq_false.mp h m (mem_range.mpr hm)
  simp only [hocc, Bool.true_and, Bool.and_eq_true, decide_eq_true_eq, BitVec.lt_def,
    rangeEnd_toNat hb, rangeEnd_toNat hfits.below] at hno
  rw [IoMmuMapping.Apart, hphys]
  omega

section

variable (h : ExactInv s)
include h

theorem fresh (hx : Mappable s i rec x) {j : ℕ} (hj : j < x.pages) :
    s.mem.leaf s.roots i (leafPos (pageAt x.phys j)) = 0 := by
  by_contra hne
  obtain ⟨m, hocc, hmem⟩ := h.only i _ (digits_length _ 3) hne
  obtain ⟨k, hk, heq⟩ := mem_rangePos.mp hmem
  exact (hx.apart m hocc).leafPos_ne (h.fits i m hocc) hx.fits hk hj heq

theorem mapped (hx : Mappable s i rec x) (hocc : x.occupied)
    (hu : u.domains = update s.domains i (setMap (s.domains i) rec x))
    (hm : Mapped s.roots s.mem i x.phys x.slFlags x.pages u.mem) : ExactInv u := by
  have hroots := roots_congr (root_setMap hu)
  have hmaps := maps_setMap hu
  have hkeep : ∀ d m, (s.record d m).occupied → u.record d m = s.record d m := by
    intro d m htrue
    rw [hmaps, if_neg]
    rintro ⟨rfl, rfl⟩
    rw [hx.vacant] at htrue
    cases htrue
  have hother : ∀ {d m}, (u.record d m).occupied →
      (d = i ∧ m = rec) ∧ u.record d m = x ∨
        (s.record d m).occupied = true ∧ u.record d m = s.record d m := by
    intro d m htrue
    rw [hmaps] at htrue ⊢
    split_ifs at htrue ⊢ with hpos
    · exact .inl ⟨hpos, rfl⟩
    · exact .inr ⟨htrue, rfl⟩
  constructor
  case rest => exact hroots ▸ hm.rest
  case idle =>
    intro d hfree m
    rw [(root_setMap hu d).1] at hfree
    rw [hmaps, if_neg]
    · exact h.idle d hfree m
    · rintro ⟨rfl, -⟩
      exact nomatch hfree.symm.trans hx.occupied
  case slots =>
    intro d m htrue
    obtain ⟨⟨-, rfl⟩, -⟩ | ⟨htrue, -⟩ := hother htrue
    · exact hx.slot
    · exact h.slots d m htrue
  case fits =>
    intro d m htrue
    obtain ⟨-, heq⟩ | ⟨htrue, heq⟩ := hother htrue
    · exact heq ▸ hx.fits
    · exact heq ▸ h.fits d m htrue
  case apart =>
    intro d m m' hne htrue htrue'
    obtain ⟨⟨rfl, rfl⟩, heq⟩ | ⟨htrue, heq⟩ := hother htrue
    · obtain ⟨⟨-, rfl⟩, -⟩ | ⟨htrue', heq'⟩ := hother htrue'
      · exact absurd rfl hne
      · rw [heq, heq']
        exact (hx.apart m' htrue').symm
    · obtain ⟨⟨rfl, rfl⟩, heq'⟩ | ⟨htrue', heq'⟩ := hother htrue' <;> rw [heq, heq']
      · exact hx.apart m htrue
      · exact h.apart d m m' hne htrue htrue'
  case set =>
    intro d m j hd htrue hj
    rw [hroots]
    obtain ⟨⟨rfl, rfl⟩, heq⟩ | ⟨htrue, heq⟩ := hother htrue <;> rw [heq] at hj ⊢
    · exact hm.set j hj
    · rw [hm.kept d _ (digits_length _ 3)]
      · exact h.set d m j hd htrue hj
      · rintro ⟨rfl, hmem⟩
        obtain ⟨k, hk, hpos⟩ := mem_rangePos.mp hmem
        exact (hx.apart m htrue).leafPos_ne (h.fits d m htrue) hx.fits hj hk hpos.symm
  case only =>
    intro d a ha hne
    rw [hroots] at hne
    by_cases hnew : d = i ∧ a ∈ rangePos x.phys x.pages
    · obtain ⟨rfl, hmem⟩ := hnew
      have heq : u.record d rec = x := by rw [hmaps, if_pos ⟨rfl, rfl⟩]
      exact ⟨rec, heq ▸ hocc, heq ▸ hmem⟩
    · rw [hm.kept d a ha hnew] at hne
      obtain ⟨m, htrue, hmem⟩ := h.only d a ha hne
      exact ⟨m, hkeep d m htrue ▸ htrue, hkeep d m htrue ▸ hmem⟩

theorem unmapped (hi : i < maxDomains) (hdom : (s.domains i).occupied)
    (hocc : (s.record i rec).occupied)
    (hu : u.domains = update s.domains i (setMap (s.domains i) rec {}))
    (hmem : u.mem = s.mem.clearLeaves (s.domains i).slRootPhys (s.record i rec).phys
      (s.record i rec).pages) : ExactInv u := by
  have hroots := roots_congr (root_setMap hu)
  have hmaps := maps_setMap hu
  have her := h.rest.clearLeaves (roots_of_occupied hi hdom) (s.record i rec).phys
    (s.record i rec).pages
  rw [← hmem] at her
  have hother : ∀ {d m}, (u.record d m).occupied →
      ¬ (d = i ∧ m = rec) ∧ (s.record d m).occupied = true ∧ u.record d m = s.record d m := by
    intro d m htrue
    rw [hmaps] at htrue ⊢
    split_ifs at htrue ⊢ with hpos
    exact ⟨hpos, htrue, rfl⟩
  refine h.keep (hroots ▸ her.rest) ?idle (fun htrue => (hother htrue).2.2) ?leaf ?only
  case idle =>
    intro d hfree m
    rw [(root_setMap hu d).1] at hfree
    rw [hmaps]
    split_ifs with hpos
    · rfl
    · exact h.idle d hfree m
  case leaf =>
    intro d m j htrue hj
    obtain ⟨hpos, htrue, -⟩ := hother htrue
    rw [hroots, her.leaf d _ (digits_length _ 3), if_neg]
    rintro ⟨rfl, hin⟩
    obtain ⟨k, hk, hsame⟩ := mem_rangePos.mp hin
    have hne : m ≠ rec := fun hm => hpos ⟨rfl, hm⟩
    exact (h.apart d m rec hne htrue hocc).leafPos_ne (h.fits d m htrue) (h.fits d rec hocc) hj hk
      hsame.symm
  case only =>
    intro d a ha hne
    rw [hroots, her.leaf d a ha] at hne
    split_ifs at hne with hin
    · exact absurd rfl hne
    obtain ⟨m, htrue, hmem'⟩ := h.only d a ha hne
    have hpos : ¬ (d = i ∧ m = rec) := by
      rintro ⟨rfl, rfl⟩
      exact hin ⟨rfl, hmem'⟩
    have heq : u.record d m = s.record d m := by rw [hmaps, if_neg hpos]
    exact ⟨m, heq ▸ htrue, heq ▸ hmem'⟩

/-- A call of `map_frame` fails with leaves, records and held pages as they were, or succeeds up to
the answer of the hardware. -/
theorem mapFrame_cases (idx : ℤ) (slFlags : BitVec 32) (hb : Below fc.phys fc.count) :
    (∃ mem, Rest s.roots mem ∧ mem.held = s.mem.held ∧
      (∀ d a, a.1.length = 3 → mem.leaf s.roots d a = s.mem.leaf s.roots d a) ∧
      ∀ flush, s.mapFrame idx fc slFlags flush = ({ s with mem := mem }, false)) ∨
    ∃ rec mem, Mappable s idx.toNat rec ⟨fc.phys, fc.count, slFlags, true⟩ ∧
      Mapped s.roots s.mem idx.toNat fc.phys slFlags fc.count mem ∧
      ∀ flush, s.mapFrame idx fc slFlags flush =
        ({ s.setDomain idx.toNat (setMap (s.domains idx.toNat) rec
          ⟨fc.phys, fc.count, slFlags, true⟩) with mem := mem }, flush) := by
  unfold mapFrame
  by_cases hbad : s.present = false ∨ ¬ inRange idx ∨ fc.count = 0 ∨ slFlags = 0 ∨
      ¬ Aligned fc.phys ∨ fc.revoked = true
  · exact .inl ⟨s.mem, h.rest, rfl, fun _ _ _ => rfl, fun _ => if_pos hbad⟩
  simp only [if_neg hbad]
  by_cases hdom : (s.domains idx.toNat).occupied = false ∨ overlaps (s.domains idx.toNat) fc = true
  · exact .inl ⟨s.mem, h.rest, rfl, fun _ _ _ => rfl, fun _ => if_pos hdom⟩
  simp only [if_neg hdom]
  cases hrec : (List.range maxMappings).find? fun m =>
      !(s.record idx.toNat m).occupied with
  | none => exact .inl ⟨s.mem, h.rest, rfl, fun _ _ _ => rfl, fun _ => rfl⟩
  | some rec =>
    push Not at hbad
    obtain ⟨-, hrange, -, hflags, hal, -⟩ := hbad
    rw [not_or, Bool.not_eq_false, Bool.not_eq_true] at hdom
    have hlt := hrange.toNat_lt
    have hx : Mappable s idx.toNat rec ⟨fc.phys, fc.count, slFlags, true⟩ := by
      refine ⟨hlt, hdom.1, mem_range.mp (mem_of_find?_eq_some hrec),
        by simpa using List.find?_some hrec, ⟨hal, hb, hflags⟩, ?_⟩
      intro m hocc
      exact apart_of_not_overlaps hdom.2 hb (h.slots _ m hocc) hocc (h.fits _ m hocc) rfl rfl
    have hinj : ∀ i < fc.count, ∀ j < fc.count,
        leafPos (pageAt fc.phys i) = leafPos (pageAt fc.phys j) → i = j := by
      intro i hi j hj heq
      have hnat := hx.fits.leafPos_eq hx.fits hi hj heq
      omega
    have hstart : Mapped s.roots s.mem idx.toNat fc.phys slFlags 0 s.mem :=
      ⟨h.rest, fun _ _ _ _ ht => ht, fun j hj => absurd hj (not_lt_zero j),
        fun _ _ _ _ => rfl⟩
    obtain ⟨mem, hmap, hm⟩ | ⟨mem, hmap, hrest, hheld, hleaf⟩ :=
      Mapped.mapPages h.rest (roots_of_occupied hlt hdom.1) hflags hinj
        (fun j hj => h.fresh hx hj) fc.count (zero_add _) hstart
    · exact .inr ⟨rec, mem, hx, hm, fun _ => by rw [hmap]⟩
    · exact .inl ⟨mem, hrest, hheld, hleaf, fun _ => by rw [hmap]⟩

theorem mapFrame (idx : ℤ) (slFlags : BitVec 32) (flush : Bool) (hb : Below fc.phys fc.count) :
    ExactInv (s.mapFrame idx fc slFlags flush).1 := by
  obtain ⟨mem, hrest, -, hleaf, heq⟩ | ⟨rec, mem, hx, hm, heq⟩ := h.mapFrame_cases idx slFlags hb
  · rw [heq]
    exact h.setMem hrest hleaf
  · rw [heq]
    exact h.mapped hx rfl rfl hm

theorem unmapFrame (idx : ℤ) (fc : FrameCap) (flush : Bool) :
    ExactInv (s.unmapFrame idx fc flush).1 := by
  unfold IommuState.unmapFrame
  split
  · exact h
  rename_i hbad
  simp only
  split
  · exact h
  rename_i hdom
  split
  · exact h
  rename_i rec hrec
  have hlt := (not_not.mp (not_or.mp hbad).2).toNat_lt
  have hfound := List.find?_some hrec
  simp only [Bool.and_eq_true] at hfound
  exact h.unmapped hlt (by simpa using hdom) hfound.1.1 rfl rfl

end

/-! ### Whole runs -/

end ExactInv

/-- The frames that are mapped end below `2 ^ 48`. -/
def FramesBelow (_ : IommuState) : IommuAction → Prop
  | .mapFrame _ fc _ _ => Below fc.phys fc.count
  | _ => True

instance (s : IommuState) (a : IommuAction) : Decidable (FramesBelow s a) := by
  unfold FramesBelow
  split <;> infer_instance

namespace ExactInv

variable {s u : IommuState} {P : Platform}

theorem claimBus_fst (s : IommuState) (b : UInt8) :
    (s.claimBus b).1.domains = s.domains ∧ (s.claimBus b).1.mem = s.mem := by
  unfold claimBus
  split
  · exact ⟨rfl, rfl⟩
  · split <;> exact ⟨rfl, rfl⟩

variable (h : ExactInv s)
include h

theorem attachDevice (idx : ℤ) (bdf : PciBdf) (flush : Bool) :
    ExactInv (s.attachDevice P idx bdf flush).1 := by
  have hbus := claimBus_fst s bdf.bus
  unfold IommuState.attachDevice
  split
  · exact h
  simp only
  split
  · exact h
  · split
    all_goals
      rename_i hclaim
      rw [hclaim] at hbus
      exact h.congr hbus.1 hbus.2

theorem clearAttachment (idx : ℤ) (bdf : PciBdf) : ExactInv (s.clearAttachment idx bdf) := by
  unfold IommuState.clearAttachment
  split
  · exact h
  · split
    · exact h
    · simp only
      split
      all_goals exact h.congr rfl rfl

theorem passthroughDevice (bdf : PciBdf) : ExactInv (s.passthroughDevice P bdf) := by
  have hbus := claimBus_fst s bdf.bus
  unfold IommuState.passthroughDevice
  split
  · next hclaim =>
    rw [hclaim] at hbus
    exact h.congr hbus.1 hbus.2
  · next hclaim =>
    rw [hclaim] at hbus
    simp only
    split
    all_goals exact h.congr hbus.1 hbus.2

theorem capCreate (taskId : ℕ) (noBlock : Bool) : ExactInv (s.capCreate taskId noBlock) := by
  have hcreate := h.domainCreate taskId
  unfold IommuState.capCreate
  split
  · exact h
  simp only
  split
  · exact hcreate
  · split
    · exact hcreate.domainDestroy _
    · exact hcreate.congr rfl rfl

theorem capTeardown (o : ℕ) (idx : ℤ) : ExactInv (s.capTeardown o idx) := by
  unfold IommuState.capTeardown
  split
  · exact (h.domainDestroy idx).congr rfl rfl
  · exact h

theorem step {a : IommuAction} (hok : FramesBelow s a) (hs : s.step P a = some u) : ExactInv u := by
  cases a with try cases hs
  | domainCreate taskId => exact h.domainCreate taskId
  | domainDestroy idx => exact h.domainDestroy idx
  | mapFrame idx fc slFlags flush => exact h.mapFrame idx slFlags flush hok
  | unmapFrame idx fc flush => exact h.unmapFrame idx fc flush
  | attachDevice idx bdf flush => exact h.attachDevice idx bdf flush
  | clearAttachment idx bdf => exact h.clearAttachment idx bdf
  | capCreate taskId noBlock => exact h.capCreate taskId noBlock
  | capRevoke o =>
    obtain ⟨idx, -, rfl⟩ := map_eq_some_iff.mp hs
    exact h.capTeardown o idx
  | capDispose o =>
    obtain ⟨idx, -, rfl⟩ := map_eq_some_iff.mp hs
    exact (h.capTeardown o idx).congr rfl rfl
  | passthroughDevice bdf =>
    obtain ⟨-, rfl⟩ := ite_some_none_eq_some.mp hs
    exact h.passthroughDevice bdf
  | forcePresent present | probeHardware => exact h.congr rfl rfl
  | pmm free =>
    obtain ⟨hfree, rfl⟩ := ite_some_none_eq_some.mp hs
    exact h.pmm hfree

omit h in
theorem of_run {as : List IommuAction} (h : Run (IommuState.step P) FramesBelow {} as s) :
    ExactInv s :=
  h.invariant (fun _ _ _ hs hok hst => hs.step hok hst) init

omit h in
theorem leafValue_eq {iova : Word} (hal : Aligned iova) (hb : iova.toNat < 2 ^ 48)
    (slFlags : BitVec 32) : leafValue iova slFlags = iova ||| slFlags.setWidth 64 := by
  have hmask : iova &&& kSlEntryAddrMask = iova := by
    have hsplit : kSlEntryAddrMask = kCteAsrMask &&& 0x000FFFFFFFFFFFFF#64 := by decide
    rw [hsplit, ← BitVec.and_assoc, and_asrMask hal]
    apply BitVec.eq_of_toNat_eq
    have hnat : (0x000FFFFFFFFFFFFF#64).toNat = 2 ^ 52 - 1 := rfl
    rw [BitVec.toNat_and, hnat, and_two_pow_sub_one_eq_mod]
    exact mod_eq_of_lt (by omega)
  rw [leafValue, hmask]

theorem leaf_iff (hd : d < maxDomains) {iova : Word} (hal : Aligned iova)
    (hb : iova.toNat < 2 ^ 48) (v : Word) :
    s.leafOf d iova = v ∧ v ≠ 0 ↔ ∃ m < maxMappings, (s.record d m).occupied = true ∧
      (s.record d m).Covers iova ∧ v = iova ||| (s.record d m).slFlags.setWidth 64 := by
  constructor
  · rintro ⟨rfl, hne⟩
    obtain ⟨m, hocc, hmem⟩ := h.only d _ (digits_length _ 3) hne
    have hfits := h.fits d m hocc
    obtain ⟨j, hj, heq⟩ := mem_rangePos.mp hmem
    have hpage := leafPos_inj (hfits.page_aligned hj) hal (hfits.page_below hj) hb heq
    refine ⟨m, h.slots d m hocc, hocc, (hfits.covers_iff hal).mpr ⟨j, hj, hpage⟩, ?_⟩
    rw [← leafValue_eq hal hb, ← hpage]
    exact h.set d m j hd hocc hj
  · rintro ⟨m, -, hocc, hcov, rfl⟩
    have hfits := h.fits d m hocc
    obtain ⟨j, hj, rfl⟩ := (hfits.covers_iff hal).mp hcov
    rw [← leafValue_eq hal hb]
    exact ⟨h.set d m j hd hocc hj, leafValue_ne_zero hfits.flags _⟩

theorem held_iff (t : Word) : s.mem.held t = true ↔ ∃! d, s.Owns d t := by
  rw [h.rest.trees.held t]
  constructor
  · rintro ⟨d, p, hp, ht⟩
    refine ⟨d, ⟨p, hp, ht⟩, ?_⟩
    rintro d' ⟨p', hp', ht'⟩
    exact (h.rest.trees.one hp' hp ht' ht).1
  · rintro ⟨d, ⟨p, hp, ht⟩, -⟩
    exact ⟨d, p, hp, ht⟩

theorem freed_of_destroyed (hrange : inRange idx) (hocc : (s.domains idx.toNat).occupied)
    {t : Word} (ht : s.Owns idx.toNat t) : (s.domainDestroy idx).mem.held t = false := by
  obtain ⟨hinv, htab⟩ := h.destroyed hrange hocc
  obtain ⟨p, hp, ht⟩ := ht
  rw [← Bool.not_eq_true]
  intro hheld
  obtain ⟨d', p', hp', ht'⟩ := (hinv.rest.trees.held t).mp hheld
  obtain ⟨hne, hold⟩ := htab d' p' t ht' hp'
  exact hne (h.rest.trees.one hp' hp hold ht).1

end ExactInv

/-- In every run that maps frames below `2 ^ 48` only, and with the PMM running out at any point,
the leaves under the root of a domain are the pages of its records, each mapped to itself with the
flags of the record. A `map_frame` that would fail even if the hardware confirmed the invalidation
leaves records, leaves and held pages as they are. A page is held exactly while it is a table of one
domain, no page is freed twice, and destroying a domain frees all its tables. -/
theorem page_tables_exact {P : Platform} {as : List IommuAction} {s : IommuState}
    (hrun : Run (IommuState.step P) FramesBelow {} as s) :
    (∀ d < maxDomains, ∀ iova, Aligned iova → iova.toNat < 2 ^ 48 → ∀ v,
      (s.leafOf d iova = v ∧ v ≠ 0 ↔ ∃ m < maxMappings, ((s.domains d).maps m).occupied = true ∧
        ((s.domains d).maps m).Covers iova ∧
        v = iova ||| ((s.domains d).maps m).slFlags.setWidth 64)) ∧
    (∀ idx fc slFlags, Below fc.phys fc.count → (s.mapFrame idx fc slFlags true).2 = false →
      ∀ flush, (s.mapFrame idx fc slFlags flush).1.domains = s.domains ∧
        (s.mapFrame idx fc slFlags flush).1.mem.held = s.mem.held ∧
        ∀ d iova, (s.mapFrame idx fc slFlags flush).1.leafOf d iova = s.leafOf d iova) ∧
    (∀ t, s.mem.held t = true ↔ ∃! d, s.Owns d t) ∧ s.mem.doubleFree = false ∧
    ∀ idx, inRange idx → (s.domains idx.toNat).occupied → ∀ t, s.Owns idx.toNat t →
      (s.domainDestroy idx).mem.held t = false := by
  have h := ExactInv.of_run hrun
  refine ⟨fun d hd iova hal hb v => h.leaf_iff hd hal hb v, ?_, h.held_iff, h.rest.trees.once,
    fun idx hrange hocc t ht => h.freed_of_destroyed hrange hocc ht⟩
  intro idx fc slFlags hb hfail flush
  obtain ⟨mem, -, hheld, hleaf, heq⟩ | ⟨rec, mem, -, -, heq⟩ := h.mapFrame_cases idx slFlags hb
  · rw [heq]
    exact ⟨rfl, hheld, fun d iova => hleaf d _ (digits_length _ 3)⟩
  · rw [heq] at hfail
    cases hfail

/-- A range over two leaf tables is mapped, a second one runs out of pages half way, and a page of
another domain is mapped and unmapped. -/
def mapAcross : List IommuAction :=
  [.pmm [0x1000, 0x2000, 0x3000, 0x4000, 0x5000], .forcePresent true, .domainCreate 1,
    .mapFrame 0 ⟨0x3FF000, 2, false⟩ 3 true, .mapFrame 0 ⟨0x40000000, 1, false⟩ 1 true,
    .pmm [0x6000, 0x7000, 0x8000, 0x9000], .domainCreate 2, .mapFrame 1 ⟨0x3FF000, 1, false⟩ 1 true,
    .unmapFrame 1 ⟨0x3FF000, 1, false⟩ true]

theorem page_tables_exact_mapAcross :
    ∃ s, Run (step imageTables) FramesBelow {} mapAcross s ∧
      s.leafOf 0 0x400000 = 0x400003 ∧ s.leafOf 1 0x3FF000 = 0 ∧
      (∃ m < maxMappings, ((s.domains 0).maps m).occupied = true ∧
        ((s.domains 0).maps m).Covers 0x400000 ∧
        0x400003 = 0x400000 ||| ((s.domains 0).maps m).slFlags.setWidth 64) ∧
      s.mem.doubleFree = false := by
  refine Run.exists_imp_of_exec (fun s => s.leafOf 0 0x400000 = 0x400003 ∧ s.leafOf 1 0x3FF000 = 0)
    (by decide +kernel) ?_
  rintro s hrun ⟨hleaf, hgone⟩
  have hexact := page_tables_exact hrun
  exact ⟨hleaf, hgone,
    (hexact.1 0 (by decide) 0x400000 (by decide) (by decide) 0x400003).mp ⟨hleaf, by decide⟩,
    hexact.2.2.2.1⟩

def createDomain : List IommuAction :=
  [.pmm [0x1000, 0x2000, 0x3000, 0x4000], .probeHardware, .domainCreate 1]

/-- When the hardware does not confirm the invalidation, `map_frame` reports failure, but the page
stays mapped and its tables stay allocated. -/
theorem failed_map_stays :
    ∃ s, Run (step imageTables) FramesBelow {} createDomain s ∧
      (s.mapFrame 0 ⟨0x400000, 1, false⟩ 3 false).2 = false ∧
      s.leafOf 0 0x400000 = 0 ∧
      (s.mapFrame 0 ⟨0x400000, 1, false⟩ 3 false).1.leafOf 0 0x400000 = 0x400003 ∧
      s.mem.held 0x2000 = false ∧
      (s.mapFrame 0 ⟨0x400000, 1, false⟩ 3 false).1.mem.held 0x2000 = true :=
  Run.exists_of_exec (by decide +kernel)

end Nexios.Iommu
