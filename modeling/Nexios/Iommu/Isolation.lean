import Nexios.Iommu.Manager

/-!
# DMA isolation over whole runs

Every translating context entry belongs to one device and points to the root of the domain to which
that device was attached last, as long as that domain lives. Attaching, mapping, unmapping and
creating domains preserve this. Destroying a domain leaves the entries that point to it where they
are, and clearing the attachment of one device takes the root entry away from its whole bus;
`Detached` is the condition under which neither does harm.
-/

open Function Option List

namespace Nexios.Iommu

/-! ### Bits of the entries -/

theorem or_and_mask {a m : Word} (h : a &&& m = 0#64) (x : Word) : (a ||| x) &&& m = x &&& m := by
  rw [BitVec.and_or_distrib_right, h, BitVec.zero_or]

theorem and_asrMask {root : Word} (h : Aligned root) : root &&& kCteAsrMask = root := by
  have hall : (0xFFF : Word) ||| kCteAsrMask = BitVec.allOnes 64 := by decide
  have hlow : root &&& 0xFFF = 0#64 := h
  calc root &&& kCteAsrMask = root &&& 0xFFF ||| root &&& kCteAsrMask := by
        rw [hlow, BitVec.zero_or]
    _ = root &&& (0xFFF ||| kCteAsrMask) := BitVec.and_or_distrib_left.symm
    _ = root := by rw [hall, BitVec.and_allOnes]

open IommuState in
theorem asr_contextEntry {root : Word} (h : Aligned root) : (contextEntry root).asr = root := by
  rw [Entry16.asr, contextEntry, or_and_mask (by decide), BitVec.and_assoc, BitVec.and_self,
    and_asrMask h]

theorem ctxIndex_inj {bdf bdf' : PciBdf} (hbus : bdf.bus = bdf'.bus) (hv : bdfValid bdf)
    (hv' : bdfValid bdf') (h : ctxIndex bdf = ctxIndex bdf') : bdf = bdf' := by
  obtain ⟨b, d, f⟩ := bdf
  obtain ⟨b', d', f'⟩ := bdf'
  simp only [bdfValid, ctxIndex] at hbus hv hv' h
  have hd : d = d' := UInt8.toNat_inj.mp (by omega)
  have hf : f = f' := UInt8.toNat_inj.mp (by omega)
  rw [hbus, hd, hf]

theorem ctxIndex_lt {bdf : PciBdf} (hv : bdfValid bdf) : ctxIndex bdf < 256 := by
  simp only [bdfValid, ctxIndex] at hv ⊢
  omega

/-! ### The invariant -/

namespace IommuState

theorem inRange.toNat_lt {idx : ℤ} (h : inRange idx) : idx.toNat < maxDomains := by
  obtain ⟨hle, hlt⟩ := h
  omega

/-- Entry `k` of the context table `slot` is the one of the device `bdf`. -/
def EntryOf (s : IommuState) (slot k : ℕ) (bdf : PciBdf) : Prop :=
  bdfValid bdf ∧ s.ctxBusIds slot = some bdf.bus ∧ ctxIndex bdf = k

/-- `d` is alive, it is the domain to which `bdf` was attached last, and `e` points to its root. -/
def LeadsTo (s : IommuState) (bdf : PciBdf) (e : Entry16) (d : ℕ) : Prop :=
  d < maxDomains ∧ (s.domains d).occupied = true ∧
    s.last bdf = some (d, (s.domains d).serial) ∧ e.asr = (s.domains d).slRootPhys

def Unreferenced (s : IommuState) (idx : ℤ) : Prop :=
  inRange idx → (s.domains idx.toNat).occupied → ∀ slot < maxBuses, ∀ k < 256,
    (s.ctxTables slot k).Translates →
      (s.ctxTables slot k).asr ≠ (s.domains idx.toNat).slRootPhys

/-- No other device on the bus has a context entry. -/
def AloneOnBus (s : IommuState) (bdf : PciBdf) : Prop :=
  ∀ slot < maxBuses, s.ctxBusIds slot = some bdf.bus → ∀ k < 256, k ≠ ctxIndex bdf →
    ¬ (s.ctxTables slot k).Present

instance (s : IommuState) (idx : ℤ) : Decidable (s.Unreferenced idx) :=
  inferInstanceAs (Decidable (_ → _))

instance (s : IommuState) (bdf : PciBdf) : Decidable (s.AloneOnBus bdf) :=
  inferInstanceAs (Decidable (∀ slot < _, _ → _))

end IommuState

/-- A domain is destroyed only when no context entry points to it, and an attachment is cleared only
when the device is alone on its bus. -/
def Detached (s : IommuState) : IommuAction → Prop
  | .domainDestroy idx => s.Unreferenced idx
  | .capRevoke o => ∀ idx ∈ s.caps o, s.Unreferenced idx
  | .capDispose o => ∀ idx ∈ s.caps o, s.Unreferenced idx
  | .clearAttachment _ bdf => s.AloneOnBus bdf
  | _ => True

instance (s : IommuState) (a : IommuAction) : Decidable (Detached s a) := by
  unfold Detached
  split <;> infer_instance

structure IsoInv (P : Platform) (s : IommuState) : Prop where
  claimedOnce : ∀ i < maxBuses, ∀ j < maxBuses, ∀ b,
    s.ctxBusIds i = some b → s.ctxBusIds j = some b → i = j
  unclaimed : ∀ i, s.ctxBusIds i = none → ∀ k, s.ctxTables i k = {}
  roots : ∀ b, (s.rootTable b).lo &&& kRootEntryPresent ≠ 0 →
    ∃ slot < maxBuses, s.ctxBusIds slot = some b ∧ s.rootTable b = IommuState.rootEntry P slot
  entries : ∀ slot < maxBuses, ∀ k < 256, (s.ctxTables slot k).Translates →
    ∃ bdf d, s.EntryOf slot k bdf ∧ s.LeadsTo bdf (s.ctxTables slot k) d
  past : ∀ bdf d n, s.last bdf = some (d, n) → n < s.created
  free : s.mem.FreeAligned
  aligned : ∀ d, (s.domains d).occupied → Aligned (s.domains d).slRootPhys
  serials : ∀ d, (s.domains d).occupied → (s.domains d).serial < s.created

namespace IsoInv

open IommuState

variable {P : Platform} {s u : IommuState} {slot : ℕ} {bdf : PciBdf} {mem : TableMem} {idx : ℤ}
  {i : ℕ}

theorem init : IsoInv P {} where
  claimedOnce _ _ _ _ _ h := by cases h
  unclaimed _ _ _ := rfl
  roots _ h := absurd (show (0 : Word) &&& kRootEntryPresent = 0 by decide) h
  entries _ _ _ _ h := absurd (show (0 : Word) &&& kCtePresent = 0 by decide) h.1
  past _ _ _ h := by cases h
  free _ h := by cases h
  aligned _ h := by cases h
  serials _ h := by cases h

theorem setMem (h : IsoInv P s) (hfree : mem.FreeAligned) : IsoInv P { s with mem := mem } :=
  { h with free := hfree }

/-- A step that leaves the root and context tables alone. A domain to which no entry leads may come
or go. -/
theorem setDomain (h : IsoInv P s) {x : IoMmuDomain} {created : ℕ} (hcreated : s.created ≤ created)
    (hfree : mem.FreeAligned)
    (hkeep : ∀ slot < maxBuses, ∀ k < 256, (s.ctxTables slot k).Translates → ∀ bdf,
      s.LeadsTo bdf (s.ctxTables slot k) i → x.occupied = true ∧ x.serial = (s.domains i).serial ∧
        x.slRootPhys = (s.domains i).slRootPhys)
    (haligned : x.occupied → Aligned x.slRootPhys)
    (hserial : x.occupied → x.serial < created) : IsoInv P { s with
      domains := update s.domains i x
      mem := mem
      created := created } := by
  refine { h with
    entries := ?entries
    past := fun bdf d n hl => Nat.lt_of_lt_of_le (h.past bdf d n hl) hcreated
    free := hfree
    aligned := (forall_update_iff s.domains fun _ y => y.occupied → Aligned y.slRootPhys).mpr
      ⟨haligned, fun d _ => h.aligned d⟩
    serials := (forall_update_iff s.domains fun _ y => y.occupied → y.serial < created).mpr
      ⟨hserial, fun d _ hocc => Nat.lt_of_lt_of_le (h.serials d hocc) hcreated⟩ }
  intro slot hslot k hk ht
  obtain ⟨bdf, d, hentry, hlead⟩ := h.entries slot hslot k hk ht
  refine ⟨bdf, d, hentry, ?_⟩
  by_cases hd : d = i
  · subst hd
    obtain ⟨hocc, hserial, hroot⟩ := hkeep slot hslot k hk ht bdf hlead
    obtain ⟨hlt, -, hl, hasr⟩ := hlead
    simp only [LeadsTo, update_self, hocc, hserial, hroot]
    exact ⟨hlt, trivial, hl, hasr⟩
  · simp only [LeadsTo, update_of_ne hd]
    exact hlead

theorem freeDomain_eq_some (h : s.freeDomain = some i) :
    i < maxDomains ∧ (s.domains i).occupied = false := by
  refine ⟨mem_range.mp (mem_of_find?_eq_some h), ?_⟩
  simpa using List.find?_some h

theorem domainCreate (h : IsoInv P s) (taskId : ℕ) : IsoInv P (s.domainCreate taskId).1 := by
  unfold IommuState.domainCreate
  split_ifs
  · exact h
  split
  · exact h
  rename_i i hi
  obtain ⟨hfree, hpage⟩ := h.free.alloc
  obtain ⟨-, hvacant⟩ := freeDomain_eq_some hi
  simp only
  split_ifs
  · exact h.setMem hfree
  apply h.setDomain (Nat.le_succ _) hfree
  · intro slot _ k _ _ bdf hlead
    have hocc := hlead.2.1
    rw [hvacant] at hocc
    cases hocc
  · exact fun _ => hpage
  · exact fun _ => Nat.lt_succ_self _

theorem clearMaps_aligned (h : mem.FreeAligned) {d : IoMmuDomain}
    (hr : Aligned d.slRootPhys) : (clearMaps mem d).FreeAligned := by
  unfold clearMaps
  induction List.range maxMappings generalizing mem with
  | nil => exact h
  | cons m ms ih =>
    apply ih
    simp only
    split_ifs
    · exact h.clearLeaves hr
    · exact h

theorem domainDestroy_cases (s : IommuState) (idx : ℤ) : s.domainDestroy idx = s ∨
    inRange idx ∧ (s.domains idx.toNat).occupied = true ∧ ∃ mem : TableMem,
      (s.mem.FreeAligned → Aligned (s.domains idx.toNat).slRootPhys → mem.FreeAligned) ∧
      s.domainDestroy idx = { s with
        domains := update s.domains idx.toNat { 
          serial := (s.domains idx.toNat).serial
          maps := clearRecords (s.domains idx.toNat).maps }
        mem := mem } := by
  unfold IommuState.domainDestroy
  by_cases hrange : inRange idx
  · rw [if_neg (not_not.mpr hrange)]
    cases hocc : (s.domains idx.toNat).occupied with
    | false =>
      left
      exact if_pos hocc
    | true =>
      right
      refine ⟨hrange, rfl, _, ?_, if_neg (by simp [hocc])⟩
      intro hfree hr
      have hcleared := clearMaps_aligned hfree hr
      split_ifs
      · exact hcleared.freePage hr
      · exact hcleared
  · exact .inl (if_pos hrange)

section

variable (h : IsoInv P s) {b : UInt8} {e : Entry16}
include h

theorem domainDestroy
    (hno : inRange idx → ∀ slot < maxBuses, ∀ k < 256, (s.ctxTables slot k).Translates → ∀ bdf,
      ¬ s.LeadsTo bdf (s.ctxTables slot k) idx.toNat) : IsoInv P (s.domainDestroy idx) := by
  rcases domainDestroy_cases s idx with heq | ⟨hrange, hocc, mem, hmem, heq⟩ <;> rw [heq]
  · exact h
  apply h.setDomain (Nat.le_refl _) (hmem h.free (h.aligned _ hocc))
  · intro slot hslot k hk ht bdf hlead
    exact absurd hlead (hno hrange slot hslot k hk ht bdf)
  all_goals
    intro hx
    cases hx

theorem remap {m : ℕ} {x : IoMmuMapping} (hocc : (s.domains i).occupied)
    (hfree : mem.FreeAligned) : IsoInv P { s with
      domains := update s.domains i (setMap (s.domains i) m x)
      mem := mem } :=
  h.setDomain (Nat.le_refl _) hfree (fun _ _ _ _ _ _ _ => ⟨hocc, rfl, rfl⟩)
    (fun _ => h.aligned i hocc) (fun _ => h.serials i hocc)

theorem mapFrame (idx : ℤ) (fc : FrameCap) (slFlags : BitVec 32) (flush : Bool) :
    IsoInv P (s.mapFrame idx fc slFlags flush).1 := by
  unfold IommuState.mapFrame
  split_ifs with hbad
  · exact h
  simp only
  split_ifs with hd
  · exact h
  have hocc : (s.domains idx.toNat).occupied = true := by
    simp only [not_or, Bool.not_eq_false] at hd
    exact hd.1
  have hmem : (TableMem.mapPages (s.domains idx.toNat).slRootPhys fc.phys slFlags 0 fc.count
      s.mem).1.FreeAligned := h.free.mapPages (h.aligned _ hocc)
  split
  · exact h
  split
  · next mem hm =>
    rw [hm] at hmem
    exact h.setMem hmem
  · next mem hm =>
    rw [hm] at hmem
    exact h.remap hocc hmem

theorem unmapFrame (idx : ℤ) (fc : FrameCap) (flush : Bool) :
    IsoInv P (s.unmapFrame idx fc flush).1 := by
  unfold IommuState.unmapFrame
  split_ifs
  · exact h
  simp only
  split_ifs with hd
  · exact h
  · have hocc : (s.domains idx.toNat).occupied = true := by simpa using hd
    split
    · exact h
    · exact h.remap hocc (h.free.clearLeaves (h.aligned _ hocc))

omit h in
theorem findBus_eq_some (h : s.findBus b = some slot) :
    slot < maxBuses ∧ s.ctxBusIds slot = some b := by
  refine ⟨mem_range.mp (mem_of_find?_eq_some h), ?_⟩
  simpa using List.find?_some h

theorem claimBus (b : UInt8) : s.claimBus b = (s, none) ∨
    ∃ slot < maxBuses, ∃ ids, s.claimBus b = ({ s with ctxBusIds := ids }, some slot) ∧
      ids slot = some b ∧ IsoInv P { s with ctxBusIds := ids } := by
  unfold IommuState.claimBus
  cases hfind : s.findBus b with
  | some slot =>
    obtain ⟨hslot, hb⟩ := findBus_eq_some hfind
    exact .inr ⟨slot, hslot, s.ctxBusIds, rfl, hb, h⟩
  | none =>
    simp only
    split
    · exact .inl rfl
    rename_i slot hfree
    right
    have hslot := mem_range.mp (mem_of_find?_eq_some hfree)
    have hnone : s.ctxBusIds slot = none := by simpa using List.find?_some hfree
    have hzero : update s.ctxTables slot (fun _ => {}) = s.ctxTables := by
      refine update_eq_self_iff.mpr ?_
      funext k
      exact (h.unclaimed slot hnone k).symm
    have hnew : ∀ j < maxBuses, s.ctxBusIds j ≠ some b := by
      intro j hj hjb
      have hno := List.find?_eq_none.mp hfind j (mem_range.mpr hj)
      exact hno (by simpa using hjb)
    have hkeep : ∀ j b', s.ctxBusIds j = some b' →
        update s.ctxBusIds slot (some b) j = some b' := by
      intro j b' hj
      rw [update_of_ne, hj]
      rintro rfl
      rw [hnone] at hj
      cases hj
    refine ⟨slot, hslot, update s.ctxBusIds slot (some b), by rw [hzero], update_self _ _ _, ?_⟩
    refine { h with
      claimedOnce := ?claimedOnce, unclaimed := ?unclaimed, roots := ?roots, entries := ?entries }
    case claimedOnce =>
      intro i hi j hj b' hib hjb
      simp only [update_apply] at hib hjb
      split_ifs at hib hjb with h₁ h₂ h₂
      · rw [h₁, h₂]
      · cases hib
        exact absurd hjb (hnew j hj)
      · cases hjb
        exact absurd hib (hnew i hi)
      · exact h.claimedOnce i hi j hj b' hib hjb
    case unclaimed =>
      intro i hi
      simp only [update_apply] at hi
      split_ifs at hi
      exact h.unclaimed i hi
    case roots =>
      intro b' hp
      obtain ⟨i, hi, hb', hre⟩ := h.roots b' hp
      exact ⟨i, hi, hkeep i b' hb', hre⟩
    case entries =>
      intro i hi k hk ht
      obtain ⟨bdf, d, ⟨hv, hb', hidx⟩, hlead⟩ := h.entries i hi k hk ht
      exact ⟨bdf, d, ⟨hv, hkeep i _ hb', hidx⟩, hlead⟩

theorem setRoot {re : Entry16} (hre : re.lo &&& kRootEntryPresent ≠ 0 →
      ∃ slot < maxBuses, s.ctxBusIds slot = some b ∧ re = rootEntry P slot) :
    IsoInv P (s.setRoot b re) := by
  refine { h with roots := ?_ }
  intro b' hp
  simp only [setRoot_rootTable, update_apply] at hp ⊢
  split_ifs at hp ⊢ with hb
  · rw [hb]
    exact hre hp
  · exact h.roots b' hp

omit h in
theorem setContext_ne {slot k j : ℕ} (h : ¬ (i = slot ∧ j = k)) :
    (s.setContext slot k e).ctxTables i j = s.ctxTables i j := by
  by_cases hi : i = slot
  · have hj : j ≠ k := fun hj => h ⟨hi, hj⟩
    subst hi
    simp [update_of_ne hj]
  · simp [update_of_ne hi]

theorem setContext {last : PciBdf → Option (ℕ × ℕ)} (hslot : slot < maxBuses)
    (hbus : s.ctxBusIds slot = some bdf.bus) (hv : bdfValid bdf)
    (hlast : ∀ bdf', bdf' ≠ bdf → last bdf' = s.last bdf')
    (hnew : e.Translates → ∃ d < maxDomains, (s.domains d).occupied = true ∧
      last bdf = some (d, (s.domains d).serial) ∧ e.asr = (s.domains d).slRootPhys)
    (hpast : ∀ d n, last bdf = some (d, n) → n < s.created) :
    IsoInv P { s.setContext slot (ctxIndex bdf) e with last := last } := by
  refine { h with unclaimed := ?unclaimed, entries := ?entries, past := ?past }
  case unclaimed =>
    intro i hi k
    have hne : i ≠ slot := by
      rintro rfl
      have hnone : s.ctxBusIds i = none := hi
      rw [hnone] at hbus
      cases hbus
    exact (setContext_ne (fun hik => hne hik.1)).trans (h.unclaimed i hi k)
  case entries =>
    intro i hi k hk ht
    by_cases hik : i = slot ∧ k = ctxIndex bdf
    · obtain ⟨rfl, rfl⟩ := hik
      simp only [setContext_ctxTables, update_self] at ht ⊢
      obtain ⟨d, hd, hlead⟩ := hnew ht
      exact ⟨bdf, d, ⟨hv, hbus, rfl⟩, hd, hlead⟩
    · simp only [setContext_ne hik] at ht ⊢
      obtain ⟨bdf', d, hentry, hd, hocc, hl, hasr⟩ := h.entries i hi k hk ht
      refine ⟨bdf', d, hentry, hd, hocc, ?_, hasr⟩
      have hne : bdf' ≠ bdf := by
        rintro rfl
        exact hik ⟨h.claimedOnce i hi slot hslot _ hentry.2.1 hbus, hentry.2.2.symm⟩
      exact (hlast bdf' hne).trans hl
  case past =>
    intro bdf' d n hl
    by_cases hb : bdf' = bdf
    · subst hb
      exact hpast d n hl
    · exact h.past bdf' d n ((hlast bdf' hb).symm.trans hl)

theorem attachDevice (idx : ℤ) (bdf : PciBdf) (flush : Bool) :
    IsoInv P (s.attachDevice P idx bdf flush).1 := by
  unfold IommuState.attachDevice
  split_ifs with hbad
  · exact h
  simp only [not_or, not_not] at hbad
  obtain ⟨-, hv, hrange⟩ := hbad
  simp only
  split_ifs with hd
  · exact h
  have hocc : (s.domains idx.toNat).occupied = true := by simpa using hd
  rcases h.claimBus bdf.bus with heq | ⟨slot, hslot, ids, heq, hbus, hinv⟩ <;> rw [heq]
  · exact h
  have hroot := hinv.setRoot (fun _ => ⟨slot, hslot, hbus, rfl⟩)
  apply hroot.setContext hslot hbus hv
  · intro bdf' hb
    exact update_of_ne hb _ _
  · intro _
    exact ⟨idx.toNat, hrange.toNat_lt, hocc, update_self _ _ _, asr_contextEntry (h.aligned _ hocc)⟩
  · intro d n hl
    rw [update_self] at hl
    cases hl
    exact h.serials _ hocc

theorem passthroughDevice (hv : bdfValid bdf) : IsoInv P (s.passthroughDevice P bdf) := by
  unfold IommuState.passthroughDevice
  rcases h.claimBus bdf.bus with heq | ⟨slot, hslot, ids, heq, hbus, hinv⟩ <;> rw [heq]
  · exact h
  simp only
  split_ifs
  · exact hinv
  · have hroot := hinv.setRoot (fun _ => ⟨slot, hslot, hbus, rfl⟩)
    exact hroot.setContext hslot hbus hv (fun _ _ => rfl)
      (fun ht => absurd ht (by decide)) (hroot.past bdf)

theorem clearAttachment (idx : ℤ) (bdf : PciBdf) : IsoInv P (s.clearAttachment idx bdf) := by
  have hzero : ({} : Entry16).lo &&& kRootEntryPresent = 0 := by decide
  have hroot : IsoInv P (s.setRoot bdf.bus {}) := h.setRoot (absurd hzero)
  unfold IommuState.clearAttachment
  split_ifs with hbad
  · exact h
  · exact h
  simp only [not_or, not_not] at hbad
  simp only
  split
  · exact hroot
  · next slot hfind =>
    obtain ⟨hslot, hbus⟩ := findBus_eq_some hfind
    exact hroot.setContext hslot hbus hbad.2 (fun _ _ => rfl)
      (fun ht => absurd hzero ht.1) (hroot.past bdf)

theorem domainCreate_fresh {taskId : ℕ}
    (hc : s.domainCreate taskId = (u, idx)) (hidx : 0 ≤ idx) (bdf : PciBdf) (e : Entry16) :
    ¬ u.LeadsTo bdf e idx.toNat := by
  unfold IommuState.domainCreate at hc
  split_ifs at hc
  · cases hc
    omega
  split at hc
  · cases hc
    omega
  simp only at hc
  split_ifs at hc <;> cases hc
  · omega
  · rintro ⟨-, -, hl, -⟩
    simp only [setDomain_domains, Int.toNat_natCast, update_self] at hl
    have hlt := h.past bdf _ _ hl
    omega

theorem capCreate (taskId : ℕ) (noBlock : Bool) : IsoInv P (s.capCreate taskId noBlock) := by
  unfold IommuState.capCreate
  split
  · exact h
  have hinv := h.domainCreate taskId
  cases hc : s.domainCreate taskId with
  | mk u idx =>
    rw [hc] at hinv
    simp only
    split_ifs with hneg
    · exact hinv
    · have hfresh := h.domainCreate_fresh hc (by omega)
      exact hinv.domainDestroy (fun _ _ _ _ _ _ bdf => hfresh bdf _)
    · exact { hinv with }

theorem destroy_unreferenced (hok : s.Unreferenced idx) : IsoInv P (s.domainDestroy idx) := by
  apply h.domainDestroy
  rintro hrange slot hslot k hk ht bdf ⟨-, hocc, -, hasr⟩
  exact hok hrange hocc slot hslot k hk ht hasr

theorem capTeardown (hok : s.Unreferenced idx) (o : ℕ) : IsoInv P (s.capTeardown o idx) := by
  have hd := h.destroy_unreferenced hok
  unfold IommuState.capTeardown
  split_ifs
  · exact { hd with }
  · exact h

theorem step {a : IommuAction} (hok : Detached s a) (hs : s.step P a = some u) : IsoInv P u := by
  cases a with try cases hs
  | domainCreate taskId => exact h.domainCreate taskId
  | domainDestroy idx => exact h.destroy_unreferenced hok
  | mapFrame idx fc slFlags flush => exact h.mapFrame idx fc slFlags flush
  | unmapFrame idx fc flush => exact h.unmapFrame idx fc flush
  | attachDevice idx bdf flush => exact h.attachDevice idx bdf flush
  | clearAttachment idx bdf => exact h.clearAttachment idx bdf
  | capCreate taskId noBlock => exact h.capCreate taskId noBlock
  | capRevoke o =>
    obtain ⟨idx, hidx, rfl⟩ := map_eq_some_iff.mp hs
    exact h.capTeardown (hok idx hidx) o
  | capDispose o =>
    obtain ⟨idx, hidx, rfl⟩ := map_eq_some_iff.mp hs
    exact { h.capTeardown (hok idx hidx) o with }
  | passthroughDevice bdf =>
    obtain ⟨hv, rfl⟩ := ite_some_none_eq_some.mp hs
    exact h.passthroughDevice hv
  | forcePresent present | probeHardware => exact { h with }
  | pmm free =>
    obtain ⟨hfree, rfl⟩ := ite_some_none_eq_some.mp hs
    exact h.setMem (fun p hp => (hfree.2 p hp).2.1)

omit h in
theorem of_run {as : List IommuAction} (h : Run (IommuState.step P) Detached {} as s) : IsoInv P s :=
  h.invariant (fun _ _ _ hi hok hs => hi.step hok hs) init

theorem access_of_root (hslot : slot < maxBuses) (hbus : s.ctxBusIds slot = some bdf.bus)
    (hp : (s.rootTable bdf.bus).lo &&& kRootEntryPresent ≠ 0) :
    s.access P bdf = contextAccess (s.ctxTables slot (ctxIndex bdf)) := by
  obtain ⟨slot', hslot', hbus', hre⟩ := h.roots bdf.bus hp
  obtain rfl := h.claimedOnce slot' hslot' slot hslot _ hbus' hbus
  have hctp : (s.rootTable bdf.bus).lo &&& kRootEntryCtpMask = P.ctxPhys slot' := by
    rw [hre, rootEntry, or_and_mask (by decide), BitVec.and_assoc, BitVec.and_self,
      P.ctp slot' hslot']
  rw [access, if_neg hp, hctp]
  cases hfind : (List.range maxBuses).find? fun i => P.ctxPhys i == P.ctxPhys slot' with
  | none =>
    have hno := List.find?_eq_none.mp hfind slot' (mem_range.mpr hslot')
    exact absurd (beq_self_eq_true _) hno
  | some i =>
    have hi := mem_range.mp (mem_of_find?_eq_some hfind)
    have heq : P.ctxPhys i = P.ctxPhys slot' := by simpa using List.find?_some hfind
    rw [P.distinct i hi slot' hslot' heq]

end

theorem access_of_no_root
    (hp : (s.rootTable bdf.bus).lo &&& kRootEntryPresent = 0) : s.access P bdf = .blocked := by
  rw [access, if_pos hp]

theorem clearAttachment_cases (s : IommuState) (idx : ℤ) (bdf : PciBdf) :
    s.clearAttachment idx bdf = s ∨
      bdfValid bdf ∧ (s.clearAttachment idx bdf).rootTable = update s.rootTable bdf.bus {} ∧
        (s.clearAttachment idx bdf).ctxBusIds = s.ctxBusIds ∧
        ∀ slot k, s.ctxBusIds slot ≠ some bdf.bus →
          (s.clearAttachment idx bdf).ctxTables slot k = s.ctxTables slot k := by
  unfold IommuState.clearAttachment
  split_ifs with hbad
  · exact .inl rfl
  · exact .inl rfl
  simp only [not_or, not_not] at hbad
  right
  refine ⟨hbad.2, ?_⟩
  simp only
  split
  · exact ⟨rfl, rfl, fun _ _ _ => rfl⟩
  rename_i slot₀ hfind
  refine ⟨rfl, rfl, ?_⟩
  intro slot k hne
  apply setContext_ne
  rintro ⟨rfl, -⟩
  exact hne (findBus_eq_some hfind).2

theorem access_clearAttachment (h : IsoInv P s) {bdf bdf' : PciBdf} (idx : ℤ)
    (hok : s.AloneOnBus bdf) (hv' : bdfValid bdf') (hne : bdf' ≠ bdf) :
    (s.clearAttachment idx bdf).access P bdf' = s.access P bdf' := by
  have hu := h.clearAttachment idx bdf
  rcases clearAttachment_cases s idx bdf with heq | ⟨hv, hroot, hids, hctx⟩
  · rw [heq]
  by_cases hbus : bdf'.bus = bdf.bus
  · have hgone : (s.clearAttachment idx bdf).access P bdf' = .blocked := by
      apply access_of_no_root
      rw [hroot, hbus, update_self]
      decide
    rw [hgone]
    by_cases hp : (s.rootTable bdf'.bus).lo &&& kRootEntryPresent = 0
    · rw [access_of_no_root hp]
    · obtain ⟨slot, hslot, hslotBus, -⟩ := h.roots bdf'.bus hp
      have habsent := hok slot hslot (hbus ▸ hslotBus) (ctxIndex bdf') (ctxIndex_lt hv')
        (fun hidx => hne (ctxIndex_inj hbus hv' hv hidx))
      rw [h.access_of_root hslot hslotBus hp, contextAccess, if_pos habsent]
  · have hsame : (s.clearAttachment idx bdf).rootTable bdf'.bus = s.rootTable bdf'.bus := by
      rw [hroot, update_of_ne hbus]
    by_cases hp : (s.rootTable bdf'.bus).lo &&& kRootEntryPresent = 0
    · rw [access_of_no_root hp, access_of_no_root (by rw [hsame]; exact hp)]
    obtain ⟨slot, hslot, hslotBus, -⟩ := h.roots bdf'.bus hp
    rw [h.access_of_root hslot hslotBus hp,
      hu.access_of_root hslot (by rw [hids]; exact hslotBus) (by rw [hsame]; exact hp), hctx slot]
    rw [hslotBus]
    intro hb
    exact hbus (some.inj hb)

end IsoInv

open IommuState in
/-- In every run in which a domain is destroyed only when no context entry points to it and an
attachment is cleared only for a device that is alone on its bus, each translating context entry
points to the root of the living domain to which its device was attached last, no entry refers to a
root that `domain_destroy` frees, and `clear_attachment` changes the access of no other device. -/
theorem dma_isolated {P : Platform} {as : List IommuAction} {s : IommuState}
    (h : Run (IommuState.step P) Detached {} as s) :
    (∀ slot < maxBuses, ∀ k < 256, (s.ctxTables slot k).Translates →
      ∃ bdf d, s.EntryOf slot k bdf ∧ s.LeadsTo bdf (s.ctxTables slot k) d) ∧
    (∀ idx, s.Unreferenced idx → inRange idx → (s.domains idx.toNat).occupied →
      ∀ slot < maxBuses, ∀ k < 256, ((s.domainDestroy idx).ctxTables slot k).Translates →
        ((s.domainDestroy idx).ctxTables slot k).asr ≠ (s.domains idx.toNat).slRootPhys) ∧
    ∀ idx bdf, s.AloneOnBus bdf → ∀ bdf', bdfValid bdf' → bdf' ≠ bdf →
      (s.clearAttachment idx bdf).access P bdf' = s.access P bdf' := by
  have hinv := IsoInv.of_run h
  refine ⟨hinv.entries, ?_, ?_⟩
  · intro idx hok hrange hocc slot hslot k hk
    have hsame : (s.domainDestroy idx).ctxTables = s.ctxTables := by
      rcases IsoInv.domainDestroy_cases s idx with heq | ⟨-, -, mem, -, heq⟩ <;> rw [heq]
    rw [hsame]
    exact hok hrange hocc slot hslot k hk
  · intro idx bdf hok bdf' hv' hne
    exact hinv.access_clearAttachment idx hok hv' hne

def imageTables : Platform where
  ctxPhys i := BitVec.ofNat 64 (0x200000 + 4096 * i)
  ctp := by decide
  distinct := by decide

def attachTwice : List IommuAction :=
  [.pmm [0x1000, 0x2000], .forcePresent true, .domainCreate 1, .attachDevice 0 ⟨0, 3, 0⟩ true,
    .domainCreate 2, .attachDevice 1 ⟨0, 3, 0⟩ true, .domainDestroy 0]

theorem dma_isolated_attachTwice :
    ∃ s, Run (IommuState.step imageTables) Detached {} attachTwice s ∧
      (s.ctxTables 0 24).Translates ∧ ∃ bdf d, s.EntryOf 0 24 bdf ∧
        s.LeadsTo bdf (s.ctxTables 0 24) d := by
  exact Run.exists_and_of_exec (by decide +kernel) fun _ hrun hs =>
    (dma_isolated hrun).1 0 (by decide) 24 (by decide) hs

def destroyAttached : List IommuAction :=
  [.pmm [0x1000, 0x2000], .forcePresent true, .domainCreate 1, .attachDevice 0 ⟨0, 3, 0⟩ true,
    .attachDevice 0 ⟨0, 4, 0⟩ true, .domainDestroy 0]

/-- The first device still goes through the freed root. The next domain, of another task, gets that
page as its root, so the device reaches the memory of a domain to which it was never attached; and
clearing the attachment of the second device blocks the first. -/
theorem dma_reaches_foreign_domain :
    ∃ s, Run (IommuState.step imageTables) anyStep {} destroyAttached s ∧
      s.access imageTables ⟨0, 3, 0⟩ = .through 0x1000 ∧ (s.domains 0).occupied = false ∧
      s.mem.held 0x1000 = false ∧
      ((s.domainCreate 2).1.domains 0).slRootPhys = 0x1000 ∧
      ((s.domainCreate 2).1.domains 0).ownerTaskId = 2 ∧
      (s.domainCreate 2).1.last ⟨0, 3, 0⟩ ≠ some (0, ((s.domainCreate 2).1.domains 0).serial) ∧
      (s.domainCreate 2).1.access imageTables ⟨0, 3, 0⟩ = .through 0x1000 ∧
      ((s.domainCreate 2).1.clearAttachment 0 ⟨0, 4, 0⟩).access imageTables ⟨0, 3, 0⟩ = .blocked :=
  Run.exists_of_exec (by decide +kernel)

end Nexios.Iommu
