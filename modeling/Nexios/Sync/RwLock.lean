import Nexios.Lib.Run
import Nexios.Lib.Sum

/-!
# Reader-writer locks

`RwLock` keeps its whole state in a word of 32 bits: bit 31 says that a writer holds the lock, bit
30 that one waits, and the rest counts the readers. A caller moves by one atomic operation at a
time, on the word and on what it has seen of it. The exchanges compare the whole word, so that the
two bits cannot change between the load and the exchange without the exchange failing; the
unconditional operations touch bit 30 only, or belong to the holder.
-/

open Function Option BitVec Finset Nat

namespace Nexios.Sync

variable {n : ℕ}

def kWriter : BitVec 32 := 1 <<< 31

def kPending : BitVec 32 := 1 <<< 30

def readerCount (w : BitVec 32) : ℕ := w.toNat % 2 ^ 30

inductive RwCall
  | readLock
  | tryReadLock
  | writeLock
  | tryWriteLock
  deriving DecidableEq

/-- The next atomic operation of a caller, with the word that it has loaded; `tries` tells
`try_read_lock` from `read_lock`. -/
inductive RwPc
  | idle
  | readLoad (tries : Bool)
  | readExchange (tries : Bool) (seen : BitVec 32)
  /-- has read access, until `read_unlock` -/
  | reading
  | writeLoad
  | writeOr
  | writeReload
  | writeExchange (seen : BitVec 32)
  | tryWriteLoad
  | tryWriteExchange (seen : BitVec 32)
  /-- has write access, until `write_unlock` -/
  | writing
  deriving DecidableEq

namespace RwPc

/-- A call that does not get the lock returns, if it only tries, or begins again. -/
def failed (tries : Bool) : RwPc := if tries then .idle else .readLoad false

/-- One atomic operation on the word `w`. -/
def next (w : BitVec 32) : RwPc → Option (BitVec 32 × RwPc)
  | .idle => none
  | .readLoad tries =>
    some (w, if w &&& (kWriter ||| kPending) ≠ 0 then failed tries else .readExchange tries w)
  | .readExchange tries seen =>
    some (if w = seen then (seen + 1, .reading) else (w, failed tries))
  | .reading => some (w - 1, .idle)
  | .writeLoad => some (w, if w &&& kWriter ≠ 0 then .writeLoad else .writeOr)
  | .writeOr => some (w ||| kPending, .writeReload)
  | .writeReload => some (w, if w = kPending then .writeExchange w else .writeLoad)
  | .writeExchange seen => some (if w = seen then (kWriter, .writing) else (w, .writeLoad))
  | .tryWriteLoad => some (w, if w ≠ 0 then .idle else .tryWriteExchange w)
  | .tryWriteExchange seen => some (if w = seen then (kWriter, .writing) else (w, .idle))
  | .writing => some (w &&& ~~~(kWriter ||| kPending), .idle)

def reads : RwPc → ℕ
  | .reading => 1
  | _ => 0

def writes : RwPc → ℕ
  | .writing => 1
  | _ => 0

/-- What a caller knows of the word that it has loaded. -/
def Sound : RwPc → Prop
  | .readExchange _ seen => seen &&& (kWriter ||| kPending) = 0
  | .writeExchange seen => seen = kPending
  | .tryWriteExchange seen => seen = 0
  | _ => True

end RwPc

def RwCall.start : RwCall → RwPc
  | .readLock => .readLoad false
  | .tryReadLock => .readLoad true
  | .writeLock => .writeLoad
  | .tryWriteLock => .tryWriteLoad

/-- A lock and `n` callers. -/
structure RwState (n : ℕ) where
  /-- `state_` -/
  word : BitVec 32
  pc : Fin n → RwPc

inductive RwAction (n : ℕ)
  | call (t : Fin n) (c : RwCall)
  /-- `t` performs its next operation -/
  | next (t : Fin n)
  deriving DecidableEq

namespace RwState

variable {s s' : RwState n} {t u : Fin n} {w w' : BitVec 32} {p p' : RwPc} {a : RwAction n}
  {as : List (RwAction n)}

def act (s : RwState n) (t : Fin n) (r : BitVec 32 × RwPc) : RwState n :=
  ⟨r.1, update s.pc t r.2⟩

def step (s : RwState n) : RwAction n → Option (RwState n)
  | .call t c => if s.pc t = .idle then some (s.act t (s.word, c.start)) else none
  | .next t => ((s.pc t).next s.word).map (s.act t)

def readers (s : RwState n) : ℕ := ∑ t, (s.pc t).reads

def writers (s : RwState n) : ℕ := ∑ t, (s.pc t).writes

structure Start (s : RwState n) : Prop where
  word : s.word = 0
  pc : ∀ t, s.pc t = .idle

/-- There are fewer than 2³⁰ readers after the step. -/
def FewReaders (s : RwState n) (a : RwAction n) : Prop :=
  ∀ s' ∈ s.step a, s'.readers < 2 ^ 30

instance (s : RwState n) (a : RwAction n) : Decidable (s.FewReaders a) :=
  match h : s.step a with
  | none => isTrue fun s' hs => by
    rw [h] at hs
    cases hs
  | some s₁ =>
    decidable_of_iff (s₁.readers < 2 ^ 30) <| by
      unfold FewReaders
      rw [h]
      simp only [mem_some_iff, forall_eq']

/-- A writer is alone, and the word counts the readers. -/
structure Excludes (s : RwState n) : Prop where
  writer : ∀ t u, s.pc t = .writing → s.pc u = .writing → t = u
  reader : ∀ t u, s.pc t = .writing → s.pc u ≠ .reading
  count : readerCount s.word = s.readers

structure Inv (s : RwState n) : Prop where
  count : readerCount s.word = s.readers
  writer : s.word.msb.toNat = s.writers
  alone : s.word.msb → readerCount s.word = 0
  sound : ∀ t, (s.pc t).Sound

end RwState

section Words

variable {w seen : BitVec 32}

theorem readerCount_or_pending (w : BitVec 32) : readerCount (w ||| kPending) = readerCount w := by
  unfold readerCount
  rw [toNat_or, or_mod_two_pow]
  exact or_zero _

theorem msb_or_pending (w : BitVec 32) : (w ||| kPending).msb = w.msb := by
  rw [msb_or]
  exact Bool.or_false _

theorem readerCount_unlocked (w : BitVec 32) :
    readerCount (w &&& ~~~(kWriter ||| kPending)) = readerCount w := by
  unfold readerCount
  rw [toNat_and, and_mod_two_pow]
  exact and_two_pow_sub_one_of_lt_two_pow (mod_lt _ (by decide))

theorem msb_unlocked (w : BitVec 32) : (w &&& ~~~(kWriter ||| kPending)).msb = false := by
  rw [msb_and]
  exact Bool.and_false _

theorem toNat_lt_of_unlocked (h : seen &&& (kWriter ||| kPending) = 0) : seen.toNat < 2 ^ 30 := by
  have hbit : ∀ i, (kWriter ||| kPending).getLsbD i → seen.getLsbD i = false := by
    intro i hi
    have hand := congrArg (fun v => BitVec.getLsbD v i) h
    simp only [getLsbD_and, hi, Bool.and_true] at hand
    exact hand.trans getLsbD_zero
  refine lt_pow_two_of_testBit _ fun i hi => ?_
  by_cases hlt : i < 32
  · obtain rfl | rfl : i = 30 ∨ i = 31 := by omega
    · exact hbit 30 (by decide)
    · exact hbit 31 (by decide)
  · exact getLsbD_of_ge seen i (not_lt.mp hlt)

theorem msb_eq_false (h : w.toNat < 2 ^ 31) : w.msb = false := by
  rw [msb_eq_decide]
  exact decide_eq_false (not_le.mpr h)

theorem readerCount_sub_one (h : 0 < readerCount w) :
    readerCount (w - 1) + 1 = readerCount w ∧ (w - 1).msb = w.msb := by
  unfold readerCount at h ⊢
  have hsub : (w - 1).toNat = w.toNat - 1 := by bv_omega
  rw [msb_eq_decide, msb_eq_decide]
  refine ⟨by omega, decide_eq_decide.mpr ?_⟩
  omega

end Words

/-- What an operation may do to the word and to its caller. -/
structure Grants (w w' : BitVec 32) (p p' : RwPc) : Prop where
  count : readerCount w' + p.reads = readerCount w + p'.reads
  writer : w'.msb.toNat + p.writes = w.msb.toNat + p'.writes
  alone : w'.msb → readerCount w' = 0
  sound : p'.Sound

namespace RwPc

variable {w w' : BitVec 32} {p p' : RwPc}

theorem failed_reads (tries : Bool) : (failed tries).reads = 0 := by
  cases tries <;> rfl

theorem failed_writes (tries : Bool) : (failed tries).writes = 0 := by
  cases tries <;> rfl

theorem failed_sound (tries : Bool) : (failed tries).Sound := by
  cases tries <;> trivial

theorem grants_self (halone : w.msb → readerCount w = 0) (hr : p.reads = p'.reads)
    (hw : p.writes = p'.writes) (hs : p'.Sound) : Grants w w p p' :=
  ⟨by rw [hr], by rw [hw], halone, hs⟩

theorem grants_writing (hcount : readerCount w = 0) (hmsb : w.msb = false) (hr : p.reads = 0)
    (hw : p.writes = 0) : Grants w kWriter p .writing where
  count := by
    rw [hcount, hr]
    rfl
  writer := by
    rw [hmsb, hw]
    rfl
  alone _ := rfl
  sound := trivial

theorem grants_reading (hw : w &&& (kWriter ||| kPending) = 0) (hroom : readerCount w + 1 < 2 ^ 30)
    (tries : Bool) : Grants w (w + 1) (.readExchange tries w) .reading := by
  have hlt := toNat_lt_of_unlocked hw
  have hcount : readerCount w = w.toNat := mod_eq_of_lt hlt
  have hadd : (w + 1).toNat = w.toNat + 1 := by
    bv_omega
  have hmsb := msb_eq_false (hlt.trans (by decide))
  have hmsb' : (w + 1).msb = false := msb_eq_false (by omega)
  refine ⟨?_, by rw [hmsb, hmsb']; rfl, fun h => absurd h (by rw [hmsb']; nofun), trivial⟩
  change (w + 1).toNat % 2 ^ 30 + 0 = readerCount w + 1
  omega

theorem next_grants (hs : p.Sound) (halone : w.msb → readerCount w = 0)
    (hread : p.reads ≤ readerCount w) (hwrite : p.writes ≤ w.msb.toNat)
    (hroom : p.reads = 0 → readerCount w + p'.reads < 2 ^ 30) (h : p.next w = some (w', p')) :
    Grants w w' p p' := by
  cases p with
  | idle => cases h
  | readLoad tries =>
    cases h
    split_ifs with hw
    · exact grants_self halone (failed_reads tries).symm (failed_writes tries).symm
        (failed_sound tries)
    · exact grants_self halone rfl rfl (not_not.mp hw)
  | readExchange tries seen =>
    obtain hif := some.inj h
    split_ifs at hif with hw <;> cases hif
    · subst hw
      exact grants_reading hs (hroom rfl) tries
    · exact grants_self halone (failed_reads tries).symm (failed_writes tries).symm
        (failed_sound tries)
  | reading =>
    cases h
    obtain ⟨hcount, hmsb⟩ := readerCount_sub_one hread
    refine ⟨hcount, by rw [hmsb]; rfl, fun hm => ?_, trivial⟩
    have hzero := halone (hmsb.symm.trans hm)
    omega
  | writeLoad =>
    cases h
    split_ifs
    all_goals exact grants_self halone rfl rfl trivial
  | writeOr =>
    cases h
    refine ⟨by rw [readerCount_or_pending]; rfl, by rw [msb_or_pending]; rfl, fun hm => ?_, trivial⟩
    rw [readerCount_or_pending]
    exact halone ((msb_or_pending w).symm.trans hm)
  | writeReload =>
    cases h
    split_ifs with hw
    · exact grants_self halone rfl rfl hw
    · exact grants_self halone rfl rfl trivial
  | writeExchange seen =>
    obtain hif := some.inj h
    split_ifs at hif with hw <;> cases hif
    · have hpending : w = kPending := hw.trans hs
      subst hpending
      exact grants_writing rfl rfl rfl rfl
    · exact grants_self halone rfl rfl trivial
  | tryWriteLoad =>
    cases h
    split_ifs with hw
    · exact grants_self halone rfl rfl trivial
    · exact grants_self halone rfl rfl (not_not.mp hw)
  | tryWriteExchange seen =>
    obtain hif := some.inj h
    split_ifs at hif with hw <;> cases hif
    · have hzero : w = 0 := hw.trans hs
      subst hzero
      exact grants_writing rfl rfl rfl rfl
    · exact grants_self halone rfl rfl trivial
  | writing =>
    cases h
    have hmsb : w.msb = true := by
      cases hm : w.msb with
      | true => rfl
      | false =>
        rw [hm] at hwrite
        exact absurd hwrite (by decide)
    refine ⟨by rw [readerCount_unlocked]; rfl, by rw [msb_unlocked, hmsb]; rfl, fun hm => ?_,
      trivial⟩
    rw [msb_unlocked] at hm
    cases hm

end RwPc

namespace RwState

variable {s s' : RwState n} {t u : Fin n} {w : BitVec 32} {p : RwPc} {a : RwAction n}
  {as : List (RwAction n)}

theorem readers_act (s : RwState n) (t : Fin n) (w : BitVec 32) (p : RwPc) :
    (s.act t (w, p)).readers + (s.pc t).reads = s.readers + p.reads :=
  total_update RwPc.reads s.pc t p

theorem reads_le (s : RwState n) (t : Fin n) : (s.pc t).reads ≤ s.readers :=
  single_le_sum (f := fun u => (s.pc u).reads) (fun _ _ => zero_le _) (mem_univ t)

theorem writes_le (s : RwState n) (t : Fin n) : (s.pc t).writes ≤ s.writers :=
  single_le_sum (f := fun u => (s.pc u).writes) (fun _ _ => zero_le _)
    (mem_univ t)

namespace Inv

theorem act (h : s.Inv) (hg : Grants s.word w (s.pc t) p) : (s.act t (w, p)).Inv where
  count := by
    have hcount := hg.count
    have hreaders := readers_act s t w p
    have hold := h.count
    change readerCount w = _
    omega
  writer := by
    have hwriter := hg.writer
    have hwriters : (s.act t (w, p)).writers + _ = s.writers + _ := total_update RwPc.writes s.pc t p
    have hold := h.writer
    change w.msb.toNat = _
    omega
  alone := hg.alone
  sound := (forall_update_iff s.pc fun _ p => p.Sound).mpr ⟨hg.sound, fun u _ => h.sound u⟩

theorem step (h : s.Inv) (hok : s.FewReaders a) (hs : s.step a = some s') : s'.Inv := by
  cases a with
  | call t c =>
    obtain ⟨hp, rfl⟩ := ite_some_none_eq_some.mp hs
    refine h.act ?_
    rw [hp]
    cases c with
    | readLock | tryReadLock | writeLock | tryWriteLock =>
      exact RwPc.grants_self h.alone rfl rfl trivial
  | next t =>
    obtain ⟨⟨w, p⟩, hnext, rfl⟩ := map_eq_some_iff.mp hs
    refine h.act (RwPc.next_grants (h.sound t) h.alone ?_ ?_ ?_ hnext)
    · rw [h.count]
      exact s.reads_le t
    · rw [h.writer]
      exact s.writes_le t
    · have hreaders := readers_act s t w p
      have hfew := hok _ hs
      rw [h.count]
      omega

end Inv

theorem Start.inv (h : s.Start) : s.Inv := by
  have hreads : s.readers = 0 := sum_eq_zero fun t _ => by
    rw [h.pc t]
    rfl
  have hwrites : s.writers = 0 := sum_eq_zero fun t _ => by
    rw [h.pc t]
    rfl
  refine ⟨?_, ?_, ?_, fun t => by rw [h.pc t]; trivial⟩
  · rw [h.word, hreads]
    rfl
  · rw [h.word, hwrites]
    rfl
  · rw [h.word]
    nofun

theorem Inv.excludes (h : s.Inv) : s.Excludes where
  writer t u ht hu := by
    by_contra hne
    -- two writers would both be counted by one bit
    have htwo : (s.pc t).writes + (s.pc u).writes ≤ s.writers := by
      have hsub := sum_le_sum_of_subset (f := fun v => (s.pc v).writes) (subset_univ {t, u})
      rwa [sum_pair hne] at hsub
    have hone := Bool.toNat_le s.word.msb
    rw [ht, hu, ← h.writer] at htwo
    exact absurd (htwo.trans hone) (by decide)
  reader t u ht hu := by
    have hwrites := s.writes_le t
    have hreads := s.reads_le u
    rw [ht, ← h.writer] at hwrites
    rw [hu, ← h.count] at hreads
    cases hm : s.word.msb with
    | false =>
      rw [hm] at hwrites
      exact absurd hwrites (by decide)
    | true =>
      rw [h.alone hm] at hreads
      exact absurd hreads (by decide)
  count := h.count

/-- In every run with fewer than 2³⁰ readers a writer has neither another writer nor a reader beside
it, and the low bits of the word are the number of readers. -/
theorem rwLock_excludes (h : s.Start) (hr : Run step FewReaders s as s') : s'.Excludes :=
  (hr.invariant (I := Inv) (fun _ _ _ hi hok hs => hi.step hok hs) h.inv).excludes

/-- Two readers and a writer that waits for them, while a fourth caller tries in vain. -/
theorem rwLock_excludes_pending : ∃ s', Run step FewReaders (⟨0, fun _ => .idle⟩ : RwState 4)
    [.call 0 .readLock, .next 0, .call 1 .tryReadLock, .next 1, .next 0, .next 1, .call 1 .readLock,
      .next 1, .next 1, .call 2 .writeLock, .next 2, .next 2, .call 3 .tryReadLock, .next 3,
      .next 0, .next 2, .next 2, .next 2, .next 1, .next 2, .next 2] s' ∧
    s'.pc 2 = .writing ∧ s'.Excludes := by
  exact Run.exists_and_of_exec (by decide +kernel) fun _ hr _ =>
    rwLock_excludes ⟨rfl, fun _ => rfl⟩ hr

end RwState

/-! ## Writers that wait -/

namespace RwPc

variable {w w' : BitVec 32} {p p' : RwPc}

/-- Has not found the lock open for readers. -/
def Outside : RwPc → Prop
  | .readExchange _ _ | .reading => False
  | _ => True

theorem failed_outside (tries : Bool) : (failed tries).Outside := by
  cases tries <;> trivial

/-- While one of the upper bits is set, only `write_unlock` can open the lock for readers. -/
theorem next_barred (hs : p.Sound) (hread : p.reads ≤ readerCount w) (hp : p ≠ .writing)
    (hbar : 2 ^ 30 ≤ w.toNat) (h : p.next w = some (w', p')) : 2 ^ 30 ≤ w'.toNat ∧ p'.Outside := by
  cases p with
  | idle => cases h
  | readLoad tries =>
    cases h
    rw [if_pos fun hw => (toNat_lt_of_unlocked hw).not_ge hbar]
    exact ⟨hbar, failed_outside tries⟩
  | readExchange tries seen =>
    have hne : w ≠ seen := by
      rintro rfl
      exact (toNat_lt_of_unlocked hs).not_ge hbar
    rw [next, if_neg hne] at h
    cases h
    exact ⟨hbar, failed_outside tries⟩
  | reading =>
    cases h
    have hcount : 1 ≤ w.toNat % 2 ^ 30 := hread
    have hsub : (w - 1).toNat = w.toNat - 1 := by bv_omega
    exact ⟨by omega, trivial⟩
  | writeOr =>
    cases h
    exact ⟨right_le_or, trivial⟩
  | writeLoad | writeReload | tryWriteLoad =>
    cases h
    split_ifs <;> trivial
  | writeExchange seen | tryWriteExchange seen =>
    have hif := some.inj h
    split_ifs at hif <;> cases hif
    · exact ⟨by decide, trivial⟩
    · exact ⟨hbar, trivial⟩
  | writing => exact absurd rfl hp

end RwPc

namespace RwState

variable {s₀ s s' s₂ : RwState n} {v r : Fin n} {c : RwCall} {a : RwAction n}
  {as bs cs : List (RwAction n)}

/-- The step is not the one by which a writer gives the lock back. -/
def Calm (s : RwState n) (a : RwAction n) : Prop :=
  s.FewReaders a ∧ ∀ t, a = .next t → s.pc t ≠ .writing
  deriving Decidable

structure Barred (s : RwState n) : Prop where
  inv : s.Inv
  word : 2 ^ 30 ≤ s.word.toNat

theorem Barred.step (h : Barred s) (hok : Calm s a) (hs : s.step a = some s') :
    Barred s' ∧ ((s.pc r).Outside → (s'.pc r).Outside) := by
  have hinv := h.inv.step hok.1 hs
  have hmoved : ∀ t p, RwPc.Outside p → (s.pc r).Outside → (update s.pc t p r).Outside := by
    intro t p hp hr
    rw [update_apply]
    split_ifs
    · exact hp
    · exact hr
  cases a with
  | call t c =>
    obtain ⟨-, rfl⟩ := ite_some_none_eq_some.mp hs
    exact ⟨⟨hinv, h.word⟩, hmoved t _ (by cases c <;> trivial)⟩
  | next t =>
    obtain ⟨⟨w, p⟩, hnext, rfl⟩ := map_eq_some_iff.mp hs
    obtain ⟨hbar, hout⟩ := RwPc.next_barred (h.inv.sound t) (h.inv.count ▸ s.reads_le t)
      (hok.2 t rfl) h.word hnext
    exact ⟨⟨hinv, hbar⟩, hmoved t p hout⟩

theorem barred_of_or (h : s.Inv) (hv : s.pc v = .writeOr) (hok : s.FewReaders (.next v))
    (hs : s.step (.next v) = some s') : Barred s' := by
  have hinv := h.step hok hs
  rw [RwState.step, hv] at hs
  cases hs
  refine ⟨hinv, ?_⟩
  exact right_le_or

/-- Once `v` has set the pending bit, a reader that starts afterwards does not have the lock as long
as no writer gives it back. -/
theorem writer_preferred (h₀ : s₀.Start) (hr₀ : Run step FewReaders s₀ as s)
    (hv : s.pc v = .writeOr) (hr : Run step Calm s (.next v :: bs) s₂)
    (hr' : Run step Calm s₂ (.call r c :: cs) s') : s'.pc r ≠ .reading := by
  have hinv : s.Inv := hr₀.invariant (I := Inv) (fun _ _ _ hi hok hs => hi.step hok hs) h₀.inv
  cases hr with
  | cons hok hs hr =>
    have hbar : Barred s₂ := hr.invariant (fun _ _ _ hb hok hs => (hb.step (r := r) hok hs).1)
      (barred_of_or hinv hv hok.1 hs)
    cases hr' with
    | cons hok hs hr =>
      have hpc : s₂.pc r = .idle := (ite_some_none_eq_some.mp hs).1
      obtain ⟨hbar', hout⟩ := hbar.step hok hs
      have hend := hr.invariant (I := fun s => Barred s ∧ (s.pc r).Outside)
        (fun _ _ _ hb hok hs => ⟨(hb.1.step (r := r) hok hs).1, (hb.1.step hok hs).2 hb.2⟩)
        ⟨hbar', hout (hpc ▸ trivial)⟩
      intro hread
      rw [hread] at hend
      exact hend.2

/-- A writer has set the pending bit; a reader is kept out. -/
theorem writer_preferred_waiting : ∃ s s₂ s',
    Run step FewReaders (⟨0, fun _ => .idle⟩ : RwState 2) [.call 0 .writeLock, .next 0] s ∧
    Run step Calm s [.next 0] s₂ ∧ Run step Calm s₂ [.call 1 .readLock, .next 1] s' ∧
    s'.pc 1 ≠ .reading :=
  ⟨_, _, _, .of_exec rfl, .of_exec rfl, .of_exec rfl, @writer_preferred 2 ⟨0, fun _ => .idle⟩ _ _ _
    0 1 .readLock [.call 0 .writeLock, .next 0] [] [.next 1] ⟨rfl, fun _ => rfl⟩ (.of_exec rfl) rfl
    (.of_exec rfl) (.of_exec rfl)⟩

/-- Two writers have set the pending bit; the first to obtain the lock clears it for both when it
leaves, and a reader that starts then is before the other. -/
theorem reader_overtakes_writer : ∃ s', Run step FewReaders (⟨0, fun _ => .idle⟩ : RwState 3)
    [.call 0 .writeLock, .call 1 .writeLock, .next 0, .next 1, .next 0, .next 1, .next 1, .next 1,
      .next 1, .call 2 .readLock, .next 2, .next 2] s' ∧
    s'.pc 0 = .writeReload ∧ s'.pc 2 = .reading :=
  Run.exists_of_exec (by decide +kernel)

end RwState

end Nexios.Sync
