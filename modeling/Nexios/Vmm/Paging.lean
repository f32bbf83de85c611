import Nexios.Lib.Run
import Mathlib.Data.Fin.Basic

/-!
# Page tables of x86_64

A table of level `n + 1` is a row of entries, each with the table behind it; a table of level 0 is a
row of page entries. The PML4 has level 3. An entry of the page directory with the PS bit is a leaf
of 2 MiB. What lies behind such a leaf, or an entry that is not present, is without meaning.

`get_table` is the walker behind all operations. It asks the PMM whether the target of an entry is
allocated and clears the entry if it is not. The answers to the requests for a new table are a list,
in which a request can fail at any point.
-/

open Function
open BitVec (and_or_distrib_left and_or_distrib_right and_zero or_zero zero_or)

namespace Nexios.Paging

-- for the literals of `Fin 512`, as those of `Lib.Run`
instance (priority := 3000) neZero_entries : NeZero 512 := neZero_succ 511

abbrev Entry := BitVec 64

abbrev pageTableAddrMask : Entry := ~~~0xFFF#64
abbrev pageFrameMask : Entry := 0x000FFFFFFFFFF000#64
abbrev pageHugeFrameMask : Entry := 0x000FFFFFFFE00000#64
abbrev huge2MBaseMask : Entry := ~~~0x1FFFFF#64
/-- PRESENT, WRITE and USER -/
abbrev linkFlags : Entry := 7#64
abbrev nx : Entry := 0x8000000000000000#64

/-- `entry & PAGE_PRESENT` -/
def present (e : Entry) : Bool := e.getLsbD 0

/-- `entry & PAGE_HUGE` -/
def splitNeeded (e : Entry) : Bool := e.getLsbD 7

def tableChild (e : Entry) : Entry := e &&& pageTableAddrMask

def Frame := { f : Entry // f &&& pageFrameMask = f }

def tableLink (f : Frame) : Entry := f.1 ||| linkFlags

def mapFlags (user executable : Bool) : Entry :=
  3#64 ||| (if user then 4#64 else 0#64) ||| (if executable then 0#64 else nx)

def encodeMapLeaf (phys : Entry) (user executable : Bool) : Entry := phys ||| mapFlags user executable

def pageOffset (i : Fin 512) : Entry := BitVec.ofNat 64 (i.1 * 4096)

def splitEntry (e : Entry) (i : Fin 512) : Entry :=
  (e &&& huge2MBaseMask) + pageOffset i ||| (e &&& (linkFlags ||| nx))

@[reducible] def Table : ℕ → Type
  | 0 => Fin 512 → Entry
  | n + 1 => Fin 512 → Entry × Table n

/-- An entry and the table behind it. -/
abbrev Slot (n : ℕ) := Entry × Table n

def emptyTable : (n : ℕ) → Table n
  | 0 => fun _ => 0#64
  | n + 1 => fun _ => (0#64, emptyTable n)

def splitFill (e : Entry) : (n : ℕ) → Table n
  | 0 => splitEntry e
  | n + 1 => fun i => (splitEntry e i, emptyTable n)

structure Pmm where
  allocated : Entry → Bool
  /-- the answers to come -/
  supply : List (Option Frame)

namespace Pmm

def answer (m : Pmm) : Option Frame := m.supply.head?.join

def taken (m : Pmm) : Pmm where
  allocated a := m.allocated a || m.answer.any (·.1 == a)
  supply := m.supply.tail

end Pmm

variable {n : ℕ} {s : Slot n} {a : Entry → Bool} {m : Pmm} {t : Table n} {e : Entry} {β : Type*}

/-- Whether there is a table, the entry with the table behind it, and the PMM. -/
abbrev Walk (n : ℕ) := Bool × Slot n × Pmm

def linkTable (m : Pmm) (s : Slot n) (t : Table n) : Walk n :=
  match m.answer with
  | none => (false, s, m.taken)
  | some f => (true, (tableLink f, t), m.taken)

def getTable (create : Bool) (m : Pmm) (s : Slot n) : Walk n :=
  if present s.1 ∧ m.allocated (tableChild s.1) then
    if splitNeeded s.1 then
      if create then linkTable m s (splitFill s.1 n) else (false, s, m)
    else (true, s, m)
  else
    let s := (if present s.1 then 0#64 else s.1, s.2)
    if create then linkTable m s (emptyTable n) else (false, s, m)

/-- The step of a walk that creates tables; in the page directory a leaf is split first. -/
def enter (m : Pmm) (s : Slot n) : Walk n :=
  if n = 0 ∧ splitNeeded s.1 then
    match m.answer with
    | none => (false, s, m.taken)
    | some f => getTable true m.taken (tableLink f, splitFill s.1 n)
  else getTable true m s

/-! ## What a tree translates -/

/-- A choice by what an entry is: not present, a leaf of 2 MiB, or the link to a table. -/
def onSlot (s : Slot n) (absent : β) (block : Entry → β) (link : Entry → Table n → β) : β :=
  if present s.1 then if splitNeeded s.1 then block s.1 else link s.1 s.2 else absent

/-- Physical page and flags. -/
structure Translation where
  frame : Entry
  flags : Entry
  deriving DecidableEq

def leafView (e : Entry) : Translation := ⟨e &&& pageFrameMask, e &&& ~~~pageFrameMask⟩

def blockView (e : Entry) (i : Fin 512) : Translation :=
  ⟨(e &&& pageHugeFrameMask) + pageOffset i, e &&& ~~~(pageHugeFrameMask ||| 0x80#64)⟩

/-- A page below a link may be written, or used by the user, only if the link allows it as well, and
executed only if neither has NX. -/
def restrict (link : Entry) (x : Translation) : Translation :=
  ⟨x.frame, x.flags &&& (link ||| ~~~6#64) ||| link &&& nx⟩

abbrev Path := ℕ → Fin 512

def translate : (n : ℕ) → Table n → Path → Option Translation
  | 0, t, p => if present (t (p 0)) then some (leafView (t (p 0))) else none
  | n + 1, t, p => onSlot (t (p (n + 1))) none (fun e => some (blockView e (p 0)))
      fun e t => (translate n t p).map (restrict e)

def behind (s : Slot n) (p : Path) : Option Translation :=
  onSlot s none (fun e => some (blockView e (p 0))) fun e t => (translate n t p).map (restrict e)

def SamePage (n : ℕ) (p q : Path) : Prop := ∀ l ≤ n, q l = p l

/-- Only the entries of page directories are leaves, and the tables are allocated. -/
def WellFormed (allocated : Entry → Bool) : (n : ℕ) → Table n → Prop
  | 0, _ => True
  | n + 1, t => ∀ i, onSlot (t i) True (fun _ => n = 0)
      fun e t => allocated (tableChild e) = true ∧ WellFormed allocated n t

/-- The same for one entry and what lies behind it. -/
def SlotOk (allocated : Entry → Bool) (s : Slot n) : Prop :=
  onSlot s True (fun _ => n = 0) fun e t => allocated (tableChild e) = true ∧ WellFormed allocated n t

/-- The leaf of 2 MiB on the way to a page. -/
def blockAt : (n : ℕ) → Table n → Path → Option Entry
  | 0, _, _ => none
  | n + 1, t, p => onSlot (t (p (n + 1))) none some fun _ t => blockAt n t p

def lacks (s : Slot n) : Bool := onSlot s true (fun _ => true) fun _ _ => false

/-- The table behind an entry, or the new one that a walk puts there. -/
def inner (s : Slot n) : Table n :=
  if lacks s then if n = 0 ∧ splitNeeded s.1 then splitFill s.1 n else emptyTable n else s.2

/-- What an entry, or the link a walk puts there, leaves of the flags of the pages behind it. -/
def limit (s : Slot n) : Translation → Translation :=
  onSlot s id (fun _ => id) fun e _ => restrict e

/-- What the links on the way to a page leave of the flags of a new entry for it. -/
def granted : (n : ℕ) → Table n → Path → Translation → Translation
  | 0, _, _, x => x
  | n + 1, t, p, x => limit (t (p (n + 1))) (granted n (inner (t (p (n + 1)))) p x)

section

variable {absent : β} {block : Entry → β} {link : Entry → Table n → β}

theorem onSlot_absent (hp : present s.1 = false) : onSlot s absent block link = absent := by
  rw [onSlot, hp]
  rfl

theorem onSlot_block (hp : present s.1) (hs : splitNeeded s.1) :
    onSlot s absent block link = block s.1 := by
  rw [onSlot, if_pos hp, if_pos hs]

theorem onSlot_link (hp : present s.1) (hs : splitNeeded s.1 = false) :
    onSlot s absent block link = link s.1 s.2 := by
  rw [onSlot, hp, hs]
  rfl

theorem slot_cases (s : Slot n) : present s.1 = false ∨
    present s.1 = true ∧ splitNeeded s.1 = true ∨ present s.1 = true ∧ splitNeeded s.1 = false := by
  cases present s.1 <;> cases splitNeeded s.1 <;> simp

end

/-! ## Entries -/

theorem present_zero : present 0#64 = false := by decide

theorem present_link (f : Frame) : present (tableLink f) = true := by
  have hbit : linkFlags.getLsbD 0 = true := rfl
  rw [present, tableLink, BitVec.getLsbD_or, hbit, Bool.or_true]

theorem splitNeeded_link (f : Frame) : splitNeeded (tableLink f) = false := by
  have hbit : linkFlags.getLsbD 7 = false := rfl
  have hmask : pageFrameMask.getLsbD 7 = false := rfl
  rw [splitNeeded, tableLink, ← f.2, BitVec.getLsbD_or, BitVec.getLsbD_and, hbit, hmask]
  simp

theorem tableChild_link (f : Frame) : tableChild (tableLink f) = f.1 := by
  have hlow : linkFlags &&& pageTableAddrMask = 0#64 := by decide
  have hmask : pageFrameMask &&& pageTableAddrMask = pageFrameMask := by decide
  rw [tableChild, tableLink, and_or_distrib_right, hlow, or_zero, ← f.2,
    BitVec.and_assoc, hmask]

theorem restrict_link (f : Frame) : restrict (tableLink f) = id := by
  funext x
  have hall : linkFlags ||| ~~~6#64 = BitVec.allOnes 64 := by decide
  have hframe : pageFrameMask &&& nx = 0#64 := by decide
  have hflags : linkFlags &&& nx = 0#64 := by decide
  rw [restrict, tableLink, BitVec.or_assoc, hall, BitVec.or_allOnes, BitVec.and_allOnes,
    and_or_distrib_right, hflags, ← f.2, BitVec.and_assoc, hframe, and_zero,
    or_zero, or_zero]
  rfl

/-- The flags that a split drops; a link does not restrict them. -/
def Translation.dropped (x : Translation) : Entry := x.flags &&& 0x1FFF78#64

theorem dropped_restrict (e : Entry) (x : Translation) : (restrict e x).dropped = x.dropped := by
  have hnx : nx &&& 0x1FFF78#64 = 0#64 := by decide
  have hrest : ~~~6#64 &&& 0x1FFF78#64 = 0x1FFF78#64 := by decide
  have hmask : (e ||| ~~~6#64) &&& 0x1FFF78#64 = 0x1FFF78#64 := by
    rw [and_or_distrib_right, hrest]
    ext i
    simp
  rw [Translation.dropped, restrict, and_or_distrib_right, BitVec.and_assoc, hmask,
    BitVec.and_assoc e, hnx, and_zero, or_zero]
  rfl

theorem leafView_encodeMapLeaf {phys : Entry} (h : phys &&& pageFrameMask = phys)
    (user executable : Bool) :
    leafView (encodeMapLeaf phys user executable) = ⟨phys, mapFlags user executable⟩ := by
  have hframe : mapFlags user executable &&& pageFrameMask = 0#64 := by
    cases user <;> cases executable <;> decide
  have hflags : mapFlags user executable &&& ~~~pageFrameMask = mapFlags user executable := by
    cases user <;> cases executable <;> decide
  have hphys : phys &&& ~~~pageFrameMask = 0#64 := by
    rw [← h, BitVec.and_assoc]
    exact and_zero
  rw [leafView, encodeMapLeaf, and_or_distrib_right, and_or_distrib_right, h, hframe,
    hflags, hphys, or_zero, zero_or]

theorem pageOffset_and : ∀ i, pageOffset i &&& 0x1FF000#64 = pageOffset i := by decide +kernel

theorem block_add (e : Entry) {m : Entry} (hm : m &&& 0x1FF000#64 = 0#64) (i : Fin 512) :
    (e &&& m) + pageOffset i = e &&& m ||| pageOffset i := by
  apply BitVec.add_eq_or_of_and_eq_zero
  rw [← pageOffset_and i, BitVec.and_comm (pageOffset i), BitVec.and_assoc, ← BitVec.and_assoc m, hm,
    BitVec.zero_and, and_zero]

theorem splitEntry_and (e : Entry) (i : Fin 512) (m : Entry) :
    splitEntry e i &&& m = e &&& (huge2MBaseMask &&& m) ||| pageOffset i &&& (0x1FF000#64 &&& m) |||
      e &&& ((linkFlags ||| nx) &&& m) := by
  rw [splitEntry, block_add e (by decide), and_or_distrib_right, and_or_distrib_right,
    BitVec.and_assoc, BitVec.and_assoc, ← BitVec.and_assoc (pageOffset i), pageOffset_and]

theorem present_splitEntry (e : Entry) (i : Fin 512) : present (splitEntry e i) = present e := by
  rw [splitEntry, block_add e (by decide), ← pageOffset_and i]
  simp [present, linkFlags]

theorem leafView_splitEntry (e : Entry) (i : Fin 512) :
    leafView (splitEntry e i) = ⟨(blockView e i).frame, e &&& 0xFFF0000000000007#64⟩ := by
  have h₁ : huge2MBaseMask &&& pageFrameMask = pageHugeFrameMask := by decide
  have h₂ : 0x1FF000#64 &&& pageFrameMask = 0x1FF000#64 := by decide
  have h₃ : (linkFlags ||| nx) &&& pageFrameMask = 0#64 := by decide
  have h₄ : 0x1FF000#64 &&& ~~~pageFrameMask = 0#64 := by decide
  rw [leafView, splitEntry_and, splitEntry_and, h₁, h₂, h₃, h₄, pageOffset_and, and_zero,
    and_zero, or_zero, or_zero, ← and_or_distrib_left, blockView,
    block_add e (by decide)]
  congr 2

/-- A leaf without the flags that a split drops. -/
def Plain (e : Entry) : Prop := e &&& 0x1FFF78#64 = 0#64
  deriving Decidable

theorem blockView_flags (e : Entry) (i : Fin 512) :
    (blockView e i).flags = e &&& 0xFFF0000000000007#64 ||| e &&& 0x1FFF78#64 := by
  rw [← and_or_distrib_left, blockView]
  congr 1

theorem leafView_eq_blockView (h : Plain e) (i : Fin 512) :
    leafView (splitEntry e i) = blockView e i := by
  have hflags := blockView_flags e i
  rw [h, or_zero] at hflags
  rw [leafView_splitEntry, ← hflags]

theorem dropped_ne (h : ¬ Plain e) (i : Fin 512) :
    (leafView (splitEntry e i)).dropped ≠ (blockView e i).dropped := by
  have hnone : 0xFFF0000000000007#64 &&& 0x1FFF78#64 = 0#64 := by decide
  rw [leafView_splitEntry, Translation.dropped, Translation.dropped, blockView_flags,
    and_or_distrib_right, BitVec.and_assoc, hnone, BitVec.and_assoc, and_zero,
    zero_or, BitVec.and_self]
  exact .symm h

/-! ## Trees -/

theorem WellFormed.mono {a' : Entry → Bool} (ha : ∀ x, a x → a' x)
    (h : WellFormed a n t) : WellFormed a' n t := by
  induction n with
  | zero => trivial
  | succ n ih =>
    intro i
    have hslot := h i
    unfold onSlot at hslot ⊢
    split_ifs at hslot ⊢
    exacts [hslot, ⟨ha _ hslot.1, ih hslot.2⟩]

theorem WellFormed.update {t : Table (n + 1)} (h : WellFormed a (n + 1) t)
    (hs : SlotOk a s) (i : Fin 512) :
    WellFormed a (n + 1) (Function.update t i s : Fin 512 → Slot n) := by
  exact (forall_update_iff (t : Fin 512 → Slot n) fun _ => SlotOk a).mpr ⟨hs, fun j _ => h j⟩

theorem SlotOk.table (hs : splitNeeded e = false) (ha : a (tableChild e))
    (ht : WellFormed a n t) : SlotOk a (e, t) := by
  unfold SlotOk onSlot
  split_ifs with hp hs'
  · cases hs.symm.trans hs'
  · exact ⟨ha, ht⟩

theorem SlotOk.absent (hp : present s.1 = false) : SlotOk a s := by
  rw [SlotOk, onSlot_absent hp]
  trivial

theorem wellFormed_empty (a : Entry → Bool) : WellFormed a n (emptyTable n) := by
  cases n with
  | zero => trivial
  | succ n => exact fun _ => SlotOk.absent present_zero

/-- A tree with the single entry `e` in its page directory. -/
def blockTree (e : Entry) : Table 3 :=
  update (emptyTable 3) 0 (0x1007#64, update (emptyTable 2) 0 (0x2007#64,
    update (emptyTable 1) 0 (e, emptyTable 0)))

theorem wellFormed_blockTree (h₁ : a 0x1000#64) (h₂ : a 0x2000#64)
    (he : splitNeeded e) : WellFormed a 3 (blockTree e) := by
  have hd : WellFormed a 1 (update (emptyTable 1) 0 (e, emptyTable 0) : Fin 512 → Slot 0) := by
    refine (wellFormed_empty a).update ?_ 0
    unfold SlotOk onSlot
    rw [if_pos he]
    split_ifs
    all_goals trivial
  exact (wellFormed_empty a).update (.table (e := 0x1007#64) rfl h₁
    ((wellFormed_empty a).update (.table (e := 0x2007#64) rfl h₂ hd) 0)) 0

theorem blockAt_empty (p : Path) : blockAt n (emptyTable n) p = none := by
  cases n with
  | zero => rfl
  | succ n => exact onSlot_absent present_zero

theorem translate_empty (p : Path) : translate n (emptyTable n) p = none := by
  cases n with
  | zero => exact if_neg (by rw [emptyTable, present_zero]; exact Bool.false_ne_true)
  | succ n => exact onSlot_absent present_zero

/-! ## The walker -/

theorem Pmm.taken_mono (m : Pmm) (a : Entry) (h : m.allocated a) :
    m.taken.allocated a = true := by
  simp only [taken, h, Bool.true_or]

theorem Pmm.taken_answer {f : Frame} (h : m.answer = some f) : m.taken.allocated f.1 = true := by
  simp [taken, h]

theorem lacks_link (hp : present s.1) (hs : splitNeeded s.1 = false) : lacks s = false :=
  onSlot_link hp hs

theorem inner_link (hp : present s.1) (hs : splitNeeded s.1 = false) : inner s = s.2 := by
  rw [inner, lacks_link hp hs]
  rfl

theorem wellFormed_inner (h : SlotOk a s) : WellFormed a n (inner s) := by
  rcases slot_cases s with hp | ⟨hp, hs⟩ | ⟨hp, hs⟩
  · rw [inner, lacks, onSlot_absent hp, if_pos rfl]
    split_ifs with hn
    · obtain ⟨rfl, -⟩ := hn
      trivial
    · exact wellFormed_empty a
  · obtain rfl := (onSlot_block hp hs).mp h
    trivial
  · rw [inner_link hp hs]
    exact ((onSlot_link hp hs).mp h).2

/-- Entering the table behind an entry changes what is seen through it only for a leaf. -/
theorem inner_view (h : SlotOk a s) :
    (∀ q, (translate n (inner s) q).map (limit s) = behind s q ∧
      blockAt n (inner s) q = onSlot s none some fun _ t => blockAt n t q) ∨
    n = 0 ∧ present s.1 = true ∧ splitNeeded s.1 = true ∧
      ∀ q, (translate n (inner s) q).map (limit s) = some (leafView (splitEntry s.1 (q 0))) := by
  rcases slot_cases s with hp | ⟨hp, hs⟩ | ⟨hp, hs⟩
  · refine .inl fun q => ?_
    have hnone : translate n (inner s) q = none ∧ blockAt n (inner s) q = none := by
      rw [inner, lacks, onSlot_absent hp, if_pos rfl]
      split_ifs with hn
      · obtain ⟨rfl, -⟩ := hn
        simp [translate, splitFill, present_splitEntry, hp, blockAt]
      · exact ⟨translate_empty q, blockAt_empty q⟩
    rw [hnone.1, hnone.2, behind, onSlot_absent hp, onSlot_absent hp]
    exact ⟨rfl, rfl⟩
  · obtain rfl := (onSlot_block hp hs).mp h
    refine .inr ⟨rfl, hp, hs, fun q => ?_⟩
    rw [limit, onSlot_block hp hs, inner, lacks, onSlot_block hp hs]
    simp [hs, translate, splitFill, present_splitEntry, hp]
  · refine .inl fun q => ?_
    rw [inner_link hp hs, limit, behind, onSlot_link hp hs, onSlot_link hp hs, onSlot_link hp hs]
    exact ⟨rfl, rfl⟩

/-- The step into a table: with a new page if there is none, and with the pages of the leaf if the
entry is one. -/
structure Entered (m : Pmm) (s : Slot n) (r : Walk n) : Prop where
  grows : ∀ a, m.allocated a → r.2.2.allocated a
  failed : r.1 = false → r.2.1 = s
  table : r.1 → present r.2.1.1 = true ∧ splitNeeded r.2.1.1 = false ∧
    r.2.2.allocated (tableChild r.2.1.1) = true ∧ restrict r.2.1.1 = limit s ∧ r.2.1.2 = inner s

theorem enter_lacks (h : SlotOk m.allocated s) (hl : lacks s) :
    enter m s = linkTable m s (inner s) := by
  rw [inner, if_pos hl]
  unfold enter
  split_ifs with hsplit
  · unfold linkTable
    cases hf : m.answer with
    | none => rfl
    | some f =>
      simp [getTable, present_link, splitNeeded_link, tableChild_link, Pmm.taken_answer hf]
  · rcases slot_cases s with hp | ⟨hp, hs⟩ | ⟨hp, hs⟩
    · simp [getTable, hp]
    · exact absurd ⟨(onSlot_block hp hs).mp h, hs⟩ hsplit
    · cases hl.symm.trans (lacks_link hp hs)

theorem entered_enter (h : SlotOk m.allocated s) : Entered m s (enter m s) := by
  by_cases hl : lacks s = true
  · have hlimit : limit s = id := by
      unfold lacks onSlot at hl
      unfold limit onSlot
      split_ifs at hl ⊢ <;> rfl
    rw [enter_lacks h hl]
    unfold linkTable
    cases hf : m.answer with
    | none => exact ⟨m.taken_mono, fun _ => rfl, fun h => (by cases h)⟩
    | some f =>
      refine ⟨m.taken_mono, fun h => (by cases h), fun _ => ?_⟩
      exact ⟨present_link f, splitNeeded_link f, tableChild_link f ▸ Pmm.taken_answer hf,
        (restrict_link f).trans hlimit.symm, rfl⟩
  · rcases slot_cases s with hp | ⟨hp, hs⟩ | ⟨hp, hs⟩
    · exact absurd (onSlot_absent hp) hl
    · exact absurd (onSlot_block hp hs) hl
    · have halloc := ((onSlot_link hp hs).mp h).1
      have hsame : enter m s = (true, s, m) := by simp [enter, getTable, hp, hs, halloc]
      rw [hsame]
      refine ⟨fun _ h => h, fun h => (by cases h), fun _ => ⟨hp, hs, halloc, ?_, ?_⟩⟩
      · rw [limit, onSlot_link hp hs]
      · rw [inner_link hp hs]

end Nexios.Paging
