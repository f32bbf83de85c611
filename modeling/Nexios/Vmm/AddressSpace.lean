import Mathlib.Algebra.Group.Nat.Defs
import Mathlib.Data.Option.Basic
import Mathlib.Tactic.SplitIfs

/-!
# Address spaces

The four levels of page tables of a task. `map_page_in_pml4` creates the tables on the way to an
entry and splits a page of 2 MiB; it changes nothing but the entry itself, and drops the request
without a word when there is no page for a table. `clear_pte_in_pml4` clears the entry, or the whole
page of 2 MiB if the address lies in one.
-/

open Function Option Prod

namespace Nexios.Vmm

def pageSize : ℕ := 4096

def pml4Index (va : ℕ) : ℕ := va / 2 ^ 39 % 512

def pdptIndex (va : ℕ) : ℕ := va / 2 ^ 30 % 512

def pdIndex (va : ℕ) : ℕ := va / 2 ^ 21 % 512

def ptIndex (va : ℕ) : ℕ := va / 2 ^ 12 % 512

def directory (va : ℕ) : ℕ × ℕ × ℕ := (pml4Index va, pdptIndex va, pdIndex va)

def slot (va : ℕ) : (ℕ × ℕ × ℕ) × ℕ := (directory va, ptIndex va)

/-- The half of the address space that belongs to the task; `clone_kernel_pml4` fills the other one
with the tables of the kernel. -/
def UserHalf (va : ℕ) : Prop := pml4Index va < 256

theorem userHalf_of_lt {va : ℕ} (h : va < 2 ^ 47) : UserHalf va := by
  unfold UserHalf pml4Index
  omega

/-- An entry of a page directory: a page of 2 MiB, or a table with the addresses of its pages. -/
inductive PdEntry
  | absent
  | huge (base : ℕ)
  | table (pt : ℕ → Option ℕ)

namespace PdEntry

def read : PdEntry → ℕ → Option ℕ
  | .absent, _ => none
  | .huge base, j => some (base + j * pageSize)
  | .table pt, j => pt j

/-- A page is entered at an index, in a new table if there is none; `tables` is the number of pages
there are for tables. -/
def write (e : PdEntry) (j phys tables : ℕ) : Option PdEntry :=
  match e with
  | .table pt => some (.table (update pt j (some phys)))
  | .absent =>
    if tables = 0 then none
    else some (.table (update (fun _ => none) j (some phys)))
  | .huge base =>
    if tables = 0 then none
    else some (.table (update (fun k => some (base + k * pageSize)) j (some phys)))

def erase : PdEntry → ℕ → PdEntry
  | .table pt, j => .table (update pt j none)
  | _, _ => .absent

def isTable : PdEntry → Bool
  | .table _ => true
  | _ => false

variable {e e' : PdEntry} {j phys tables : ℕ}

theorem read_write (h : e.write j phys tables = some e') (k : ℕ) :
    e'.read k = if k = j then some phys else e.read k := by
  cases e with
  | table pt =>
    cases h
    exact update_apply ..
  | absent =>
    obtain ⟨-, h⟩ := ite_none_left_eq_some.mp h
    cases h
    exact update_apply (fun _ => (none : Option ℕ)) j (some phys) k
  | huge base =>
    obtain ⟨-, h⟩ := ite_none_left_eq_some.mp h
    cases h
    exact update_apply (fun i => some (base + i * pageSize)) j (some phys) k

theorem isTable_write (h : e.write j phys tables = some e') : e'.isTable = true := by
  cases e with
  | table pt =>
    cases h
    rfl
  | absent | huge base =>
    obtain ⟨-, h⟩ := ite_none_left_eq_some.mp h
    cases h
    rfl

theorem read_erase (h : e.isTable) (k : ℕ) :
    (e.erase j).read k = if k = j then none else e.read k := by
  cases e with
  | table pt => exact update_apply ..
  | absent => cases h
  | huge base => cases h

theorem isTable_erase (h : e.isTable) : (e.erase j).isTable = true := by
  cases e with
  | table pt => rfl
  | absent => cases h
  | huge base => cases h

end PdEntry

/-! ## Tables of tables -/

section Descend

variable {β : Type*}

/-- `get_table` with `create`, and what is done in the table; `false` if there is no page for a
table. -/
def descend (table : ℕ → Option β) (empty : β) (i tables : ℕ) (body : β → ℕ → β × Bool) :
    (ℕ → Option β) × Bool :=
  match table i with
  | some t => (update table i (some (body t tables).1), (body t tables).2)
  | none =>
    if tables = 0 then (table, false)
    else (update table i (some (body empty (tables - 1)).1), (body empty (tables - 1)).2)

theorem descend_spec (table : ℕ → Option β) (empty : β) (i tables : ℕ) (body : β → ℕ → β × Bool) :
    descend table empty i tables body = (table, false) ∨
      ∃ k, (descend table empty i tables body).2 = (body ((table i).getD empty) k).2 ∧
        ∀ j, ((descend table empty i tables body).1 j).getD empty =
          if j = i then (body ((table i).getD empty) k).1 else (table j).getD empty := by
  have hupdate : ∀ (t : β) (j : ℕ), (update table i (some t) j).getD empty =
      if j = i then t else (table j).getD empty := by
    intro t j
    rw [update_apply]
    split_ifs with hj
    · rfl
    · rfl
  unfold descend
  cases table i with
  | some t => exact .inr ⟨tables, rfl, hupdate _⟩
  | none =>
    split_ifs
    · exact .inl rfl
    · exact .inr ⟨tables - 1, rfl, hupdate _⟩

end Descend

abbrev PageDirectory := ℕ → PdEntry

abbrev Pdpt := ℕ → Option PageDirectory

def emptyDirectory : PageDirectory := fun _ => .absent

def emptyPdpt : Pdpt := fun _ => none

structure AddressSpace where
  pml4 : ℕ → Option Pdpt

def mapInPd (pd : PageDirectory) (va phys tables : ℕ) : PageDirectory × Bool :=
  match (pd (pdIndex va)).write (ptIndex va) phys tables with
  | some e => (update pd (pdIndex va) e, true)
  | none => (pd, false)

def mapInPdpt (pdpt : Pdpt) (va phys tables : ℕ) : Pdpt × Bool :=
  descend pdpt emptyDirectory (pdptIndex va) tables fun pd k => mapInPd pd va phys k

namespace AddressSpace

variable {s : AddressSpace} {va va' phys tables : ℕ}

variable (s : AddressSpace)

/-- `map_page_in_pml4`; the answer, which that function drops, is that of `map_page_in_pml4_try`. -/
def mapPage (va phys tables : ℕ) : AddressSpace × Bool :=
  let r := descend s.pml4 emptyPdpt (pml4Index va) tables fun pdpt k => mapInPdpt pdpt va phys k
  (⟨r.1⟩, r.2)

def clearPte (va : ℕ) : AddressSpace :=
  match s.pml4 (pml4Index va) with
  | none => s
  | some pdpt =>
    match pdpt (pdptIndex va) with
    | none => s
    | some pd =>
      let pd' := update pd (pdIndex va) ((pd (pdIndex va)).erase (ptIndex va))
      ⟨update s.pml4 (pml4Index va)
        (some (update pdpt (pdptIndex va) (some pd')))⟩

def pdEntry (va : ℕ) : PdEntry :=
  ((s.pml4 (pml4Index va)).getD emptyPdpt (pdptIndex va)).getD emptyDirectory (pdIndex va)

def translate (va : ℕ) : Option ℕ := (s.pdEntry va).read (ptIndex va)

/-- `virt_to_phys_in_pml4`, 0 for an address that is not mapped. -/
def virtToPhys (va : ℕ) : ℕ :=
  (s.translate va).elim 0 fun phys => phys + va % pageSize

theorem directory_eq_iff : directory va' = directory va ↔
    pml4Index va' = pml4Index va ∧ pdptIndex va' = pdptIndex va ∧ pdIndex va' = pdIndex va := by
  unfold directory
  rw [Prod.mk.injEq, Prod.mk.injEq]

theorem slot_eq_iff : slot va' = slot va ↔ directory va' = directory va ∧ ptIndex va' = ptIndex va := by
  unfold slot
  rw [Prod.mk.injEq]

theorem pdEntry_congr (h : directory va' = directory va) : s.pdEntry va' = s.pdEntry va := by
  obtain ⟨hi, hj, hk⟩ := directory_eq_iff.mp h
  unfold pdEntry
  rw [hi, hj, hk]

theorem translate_congr (h : slot va' = slot va) : s.translate va' = s.translate va := by
  obtain ⟨hdir, hindex⟩ := slot_eq_iff.mp h
  unfold translate
  rw [s.pdEntry_congr hdir, hindex]

/-! ## Mapping -/

theorem mapInPd_spec (pd : PageDirectory) (va phys tables : ℕ) :
    mapInPd pd va phys tables = (pd, false) ∨
      ∃ e, (pd (pdIndex va)).write (ptIndex va) phys tables = some e ∧
        mapInPd pd va phys tables = (update pd (pdIndex va) e, true) := by
  unfold mapInPd
  cases (pd (pdIndex va)).write (ptIndex va) phys tables with
  | none => exact .inl rfl
  | some e => exact .inr ⟨e, rfl, rfl⟩

def entryUnder (pdpt : Pdpt) (va : ℕ) : PdEntry :=
  (pdpt (pdptIndex va)).getD emptyDirectory (pdIndex va)

/-- What mapping does to the entries of the page directories: with success it writes one of them,
and otherwise it writes none. -/
def Maps (old new : ℕ → PdEntry) (same : ℕ → Prop) (va phys : ℕ) (ok : Bool) : Prop :=
  (ok = true ∧ ∃ e k, (old va).write (ptIndex va) phys k = some e ∧
    ∀ va', (same va' → new va' = e) ∧ (¬ same va' → new va' = old va')) ∨
  (ok = false ∧ ∀ va', new va' = old va')

theorem mapInPdpt_spec (pdpt : Pdpt) (va phys tables : ℕ) :
    Maps (entryUnder pdpt) (entryUnder (mapInPdpt pdpt va phys tables).1)
      (fun va' => pdptIndex va' = pdptIndex va ∧ pdIndex va' = pdIndex va) va phys
      (mapInPdpt pdpt va phys tables).2 := by
  rcases descend_spec pdpt emptyDirectory (pdptIndex va) tables fun pd k => mapInPd pd va phys k with
    hfail | ⟨k, hok, hview⟩
  · refine .inr ⟨congrArg snd hfail, fun va' => ?_⟩
    exact congrArg (fun r => entryUnder r va') (congrArg fst hfail)
  have hentry : ∀ va', entryUnder (mapInPdpt pdpt va phys tables).1 va' =
      (if pdptIndex va' = pdptIndex va then
        (mapInPd ((pdpt (pdptIndex va)).getD emptyDirectory) va phys k).1
      else (pdpt (pdptIndex va')).getD emptyDirectory) (pdIndex va') :=
    fun va' => congrFun (hview (pdptIndex va')) (pdIndex va')
  rcases mapInPd_spec ((pdpt (pdptIndex va)).getD emptyDirectory) va phys k with
    hfail | ⟨e, hwrite, hmap⟩
  · refine .inr ⟨hok.trans (congrArg snd hfail), fun va' => ?_⟩
    rw [hentry, hfail]
    split_ifs with hi
    · exact congrArg (fun i => (pdpt i).getD emptyDirectory (pdIndex va')) hi.symm
    · rfl
  · refine .inl ⟨hok.trans (congrArg snd hmap), e, k, hwrite, fun va' => ?_⟩
    rw [hentry, hmap]
    constructor
    · rintro ⟨hi, hj⟩
      rw [if_pos hi, hj]
      exact update_self ..
    intro hne
    split_ifs with hi
    · have hj : pdIndex va' ≠ pdIndex va := fun hj => hne ⟨hi, hj⟩
      refine .trans (update_of_ne hj ..) ?_
      exact congrArg (fun i => (pdpt i).getD emptyDirectory (pdIndex va')) hi.symm
    · rfl

theorem mapPage_spec (va phys tables : ℕ) :
    Maps s.pdEntry (s.mapPage va phys tables).1.pdEntry
      (fun va' => directory va' = directory va) va phys (s.mapPage va phys tables).2 := by
  rcases descend_spec s.pml4 emptyPdpt (pml4Index va) tables fun pdpt k => mapInPdpt pdpt va phys k
    with hfail | ⟨k, hok, hview⟩
  · refine .inr ⟨congrArg snd hfail, fun va' => ?_⟩
    exact congrArg (fun r => pdEntry ⟨r⟩ va') (congrArg fst hfail)
  have hentry : ∀ va', (s.mapPage va phys tables).1.pdEntry va' =
      entryUnder (if pml4Index va' = pml4Index va then
        (mapInPdpt ((s.pml4 (pml4Index va)).getD emptyPdpt) va phys k).1
      else (s.pml4 (pml4Index va')).getD emptyPdpt) va' :=
    fun va' => congrArg (fun t => entryUnder t va') (hview (pml4Index va'))
  have hsame : ∀ va', pml4Index va' = pml4Index va →
      entryUnder ((s.pml4 (pml4Index va)).getD emptyPdpt) va' = s.pdEntry va' := fun va' hi =>
    congrArg (fun i => entryUnder ((s.pml4 i).getD emptyPdpt) va') hi.symm
  rcases mapInPdpt_spec ((s.pml4 (pml4Index va)).getD emptyPdpt) va phys k with
    ⟨hsucc, e, k', hwrite, hnew⟩ | ⟨hfail, hnew⟩
  · refine .inl ⟨hok.trans hsucc, e, k', hwrite, fun va' => ?_⟩
    rw [hentry]
    constructor
    · intro hdir
      obtain ⟨hi, hj⟩ := directory_eq_iff.mp hdir
      rw [if_pos hi]
      exact (hnew va').1 hj
    · intro hne
      split_ifs with hi
      · have hother := (hnew va').2 fun hj => hne (directory_eq_iff.mpr ⟨hi, hj⟩)
        exact hother.trans (hsame va' hi)
      · rfl
  · refine .inr ⟨hok.trans hfail, fun va' => ?_⟩
    rw [hentry]
    split_ifs with hi
    · exact (hnew va').trans (hsame va' hi)
    · rfl

variable {s}

theorem translate_mapPage (h : (s.mapPage va phys tables).2) (va' : ℕ) :
    (s.mapPage va phys tables).1.translate va' =
      if slot va' = slot va then some phys else s.translate va' := by
  rcases s.mapPage_spec va phys tables with ⟨-, e, k, hwrite, hnew⟩ | ⟨hfail, -⟩
  · have hread := PdEntry.read_write hwrite (ptIndex va')
    unfold translate
    by_cases hdir : directory va' = directory va
    · rw [(hnew va').1 hdir, hread, s.pdEntry_congr hdir]
      exact if_congr (slot_eq_iff.trans (and_iff_right hdir)).symm rfl rfl
    · rw [(hnew va').2 hdir, if_neg fun hslot => hdir (slot_eq_iff.mp hslot).1]
  · rw [hfail] at h
    cases h

def InTable (s : AddressSpace) (va : ℕ) : Prop := (s.pdEntry va).isTable = true

theorem inTable_mapPage (h : (s.mapPage va phys tables).2) :
    (s.mapPage va phys tables).1.InTable va := by
  rcases s.mapPage_spec va phys tables with ⟨-, e, k, hwrite, hnew⟩ | ⟨hfail, -⟩
  · unfold InTable
    rw [(hnew va).1 rfl]
    exact PdEntry.isTable_write hwrite
  · rw [hfail] at h
    cases h

theorem InTable.mapPage (h : s.InTable va') (va phys tables : ℕ) :
    (s.mapPage va phys tables).1.InTable va' := by
  unfold InTable
  rcases s.mapPage_spec va phys tables with ⟨-, e, k, hwrite, hnew⟩ | ⟨-, hnew⟩
  · by_cases hdir : directory va' = directory va
    · rw [(hnew va').1 hdir]
      exact PdEntry.isTable_write hwrite
    · rw [(hnew va').2 hdir]
      exact h
  · rw [hnew]
    exact h

/-! ## Clearing -/

theorem pdEntry_clearPte (s : AddressSpace) (va va' : ℕ) : (s.clearPte va).pdEntry va' =
      if directory va' = directory va then (s.pdEntry va).erase (ptIndex va) else s.pdEntry va' := by
  have habsent : s.pdEntry va = .absent → s.pdEntry va' =
      if directory va' = directory va then (s.pdEntry va).erase (ptIndex va) else s.pdEntry va' := by
    intro ha
    split_ifs with hdir
    · rw [s.pdEntry_congr hdir, ha]
      rfl
    · rfl
  unfold clearPte
  cases hpdpt : s.pml4 (pml4Index va) with
  | none =>
    refine habsent ?_
    unfold pdEntry
    rw [hpdpt]
    rfl
  | some pdpt =>
    dsimp only
    cases hpd : pdpt (pdptIndex va) with
    | none =>
      refine habsent ?_
      unfold pdEntry
      rw [hpdpt, getD_some, hpd]
      rfl
    | some pd =>
      unfold pdEntry
      dsimp only
      by_cases hi : pml4Index va' = pml4Index va
      · rw [hi, update_self, getD_some, hpdpt, getD_some]
        by_cases hj : pdptIndex va' = pdptIndex va
        · rw [hj, update_self, hpd, getD_some, update_apply]
          have hiff := directory_eq_iff.trans ((and_iff_right hi).trans (and_iff_right hj))
          exact if_congr hiff.symm rfl rfl
        · rw [update_of_ne hj, if_neg fun h => hj (directory_eq_iff.mp h).2.1]
      · rw [update_of_ne hi, if_neg fun h => hi (directory_eq_iff.mp h).1]

theorem translate_clearPte (h : s.InTable va) (va' : ℕ) :
    (s.clearPte va).translate va' = if slot va' = slot va then none else s.translate va' := by
  unfold translate
  rw [pdEntry_clearPte]
  by_cases hdir : directory va' = directory va
  · rw [if_pos hdir, PdEntry.read_erase h, s.pdEntry_congr hdir]
    exact if_congr (slot_eq_iff.trans (and_iff_right hdir)).symm rfl rfl
  · rw [if_neg hdir, if_neg fun hslot => hdir (slot_eq_iff.mp hslot).1]

theorem InTable.clearPte (h : s.InTable va') (hva : s.InTable va) : (s.clearPte va).InTable va' := by
  unfold InTable
  rw [pdEntry_clearPte]
  split_ifs
  · exact PdEntry.isTable_erase hva
  · exact h

/-- Mapping and clearing a page affects no other page, also in a page of 2 MiB that is split. -/
theorem translate_clear_map (s : AddressSpace) (va phys tables va' : ℕ) :
    ((s.mapPage va phys tables).1.clearPte va).translate va' =
      if (s.mapPage va phys tables).2 then if slot va' = slot va then none else s.translate va'
      else (s.clearPte va).translate va' := by
  split_ifs with hok hslot
  · rw [translate_clearPte (inTable_mapPage hok), if_pos hslot]
  · rw [translate_clearPte (inTable_mapPage hok), translate_mapPage hok, if_neg hslot, if_neg hslot]
  · rcases s.mapPage_spec va phys tables with ⟨hsucc, -⟩ | ⟨-, hnew⟩
    · exact absurd hsucc hok
    · unfold translate
      rw [pdEntry_clearPte, pdEntry_clearPte, hnew, hnew]

end AddressSpace

end Nexios.Vmm
