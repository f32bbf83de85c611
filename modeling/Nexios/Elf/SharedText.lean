import Nexios.Lib.Run

/-!
# Text of shared libraries

The cache keeps the frames of a loaded library. A further task gets its own copies of the writable
pages, but the read-only pages are mapped as they are. A relocation is written to the frame that the
target address has in the address space of the task, whatever that frame holds.

A slot records the memory at the moment of its publication. Names, reference counts and symbol
tables are left open: a load can hit any slot, any release can be the last, and `symbol` is any
outcome of the lookup. `mapImage` also stands for executables and for loads that fail later.
-/

namespace Nexios.Elf

open Function Option List

structure ELF64Rela where
  (rOffset rInfo rAddend : Word)

/-- A page of an image, with the frame that `alloc_user_page` gives for it. -/
structure ImagePage where
  page : ℕ
  writable : Bool
  phys : ℕ
  content : ℕ → Word

structure LoadedLibrary where
  loadBase : ℕ := 0
  /-- `phys_pages`, with the bits of `writable_mask` -/
  physPages : List (ℕ × Bool) := []
  inProgress : Bool := false
  published : ℕ → ℕ → Word := fun _ _ => 0

def LoadedLibrary.Shares (lib : LoadedLibrary) (f : ℕ) : Prop := (f, false) ∈ lib.physPages
deriving Decidable

/-- Memory by frame and word, the free frames, the address spaces by page, the slots. -/
structure LoadState (n : ℕ) where
  mem : ℕ → ℕ → Word
  free : ℕ → Bool
  table : ℕ → ℕ → Option ℕ
  libs : Fin n → LoadedLibrary

inductive Action (n : ℕ)
  | mapImage (t : ℕ) (ps : List ImagePage)
  | loadFresh (t : ℕ) (i : Fin n) (loadBase : ℕ) (ps : List ImagePage)
  | publish (i : Fin n)
  | mapHit (t : ℕ) (i : Fin n) (k phys : ℕ) (content : ℕ → Word)
  | applyRelaTable (t : ℕ) (linkBase loadBase : Word) (symbol : Word → Option Word)
      (table : List ELF64Rela)
  | release (i : Fin n)
  | freeUserPages (t : ℕ) (pages : List ℕ)

namespace LoadState

variable {n : ℕ} (s : LoadState n) (t : ℕ) (i : Fin n)

def mapPage (page phys : ℕ) : LoadState n :=
  { s with table := update s.table t (update (s.table t) page (some phys)) }

def mapOnePage (p : ImagePage) : Option (LoadState n) :=
  if s.free p.phys then
    some (mapPage { s with free := update s.free p.phys false, mem := update s.mem p.phys p.content }
      t p.page p.phys)
  else none

def mapImage (s : LoadState n) : List ImagePage → Option (LoadState n)
  | [] => some s
  | p :: ps => (s.mapOnePage t p).bind (mapImage · ps)

def loadFresh (loadBase : ℕ) (ps : List ImagePage) : Option (LoadState n) :=
  if (s.libs i).physPages = [] ∧ (s.libs i).inProgress = false then
    (s.mapImage t ps).map fun u => { u with
      libs := update u.libs i ⟨loadBase, ps.map fun p => (p.phys, p.writable), true, fun _ _ => 0⟩ }
  else none

/-- The end of `load_fresh`, and `clear_in_progress`. -/
def publish : Option (LoadState n) :=
  if (s.libs i).inProgress then
    some { s with
      libs := update s.libs i { s.libs i with inProgress := false, published := s.mem } }
  else none

/-- One round of the loop of `map_hit`. -/
def mapHit (k phys : ℕ) (content : ℕ → Word) : Option (LoadState n) :=
  let page := (s.libs i).loadBase + k
  if (s.libs i).inProgress then none
  else
    match (s.libs i).physPages[k]? with
    | none => none
    | some (shared, false) => some (s.mapPage t page shared)
    | some (_, true) => s.mapOnePage t ⟨page, true, phys, content⟩

def targetWriteU64 (va value : Word) : Option (LoadState n) :=
  if 0x800000000000 ≤ va ∨ va &&& 7 ≠ 0 then none
  else (s.table t (va.toNat / 4096)).map fun f =>
    { s with mem := update s.mem f (update (s.mem f) (va.toNat % 4096 / 8) value) }

def relaValue (bias : Word) (symbol : Word → Option Word) (r : ELF64Rela) : Option Word :=
  let type := r.rInfo &&& 0xffffffff
  let sym := r.rInfo >>> 32
  if type = 8 then
    if sym ≠ 0 ∨ r.rAddend.msb ∨ ~~~bias < r.rAddend then none else some (bias + r.rAddend)
  else if type = 6 ∨ type = 7 ∨ type = 1 then symbol sym
  else none

/-- The loop of `apply_rela_table`: what was written before an entry that fails stays. -/
def applyRelas (bias : Word) (symbol : Word → Option Word) (s : LoadState n) :
    List ELF64Rela → LoadState n × Bool
  | [] => (s, true)
  | r :: rs =>
    if ~~~bias < r.rOffset then (s, false)
    else
      match (relaValue bias symbol r).bind (s.targetWriteU64 t (r.rOffset + bias)) with
      | none => (s, false)
      | some u => applyRelas bias symbol u rs

def applyRelaTable (linkBase loadBase : Word) (symbol : Word → Option Word)
    (table : List ELF64Rela) : LoadState n × Bool :=
  if loadBase < linkBase then (s, false) else s.applyRelas t (loadBase - linkBase) symbol table

def release : LoadState n :=
  if (s.libs i).inProgress then s
  else
    { s with
      free := fun f => s.free f || decide ((s.libs i).Shares f)
      libs := update s.libs i {} }

/-- `free_user_pages`, where `pages` are those still mapped. -/
def freeUserPages (pages : List ℕ) : LoadState n :=
  { s with
    free := fun f => s.free f || decide (f ∈ pages.filterMap (s.table t))
    table := update s.table t fun _ => none }

def step (s : LoadState n) : Action n → Option (LoadState n)
  | .mapImage t ps => s.mapImage t ps
  | .loadFresh t i loadBase ps => s.loadFresh t i loadBase ps
  | .publish i => s.publish i
  | .mapHit t i k phys content => s.mapHit t i k phys content
  | .applyRelaTable t linkBase loadBase symbol table =>
    some (s.applyRelaTable t linkBase loadBase symbol table).1
  | .release i => some (s.release i)
  | .freeUserPages t pages => some (s.freeUserPages t pages)

/-- The frames that relocations write to or that are freed with the pages of a task. -/
def touched : Action n → List ℕ
  | .applyRelaTable t linkBase loadBase _ table =>
    table.filterMap fun r => s.table t ((r.rOffset + (loadBase - linkBase)).toNat / 4096)
  | .freeUserPages t pages => pages.filterMap (s.table t)
  | _ => []

def Spares (a : Action n) : Prop := ∀ f ∈ s.touched a, ∀ i, ¬ (s.libs i).Shares f
deriving Decidable

/-- The frames that a slot shares are allocated, its own, and hold the published text. -/
def Inv : Prop :=
  ∀ i f, (s.libs i).Shares f → s.free f = false ∧ (∀ j, (s.libs j).Shares f → j = i) ∧
    ((s.libs i).inProgress = false → s.mem f = (s.libs i).published f)

variable {s t i} {u : LoadState n}

theorem Inv.keep (h : s.Inv) (hlibs : u.libs = s.libs)
    (hkept : ∀ j f, (s.libs j).Shares f → u.mem f = s.mem f ∧ u.free f = false) : u.Inv := by
  intro j f hf
  rw [hlibs] at hf ⊢
  obtain ⟨-, hone, htext⟩ := h j f hf
  obtain ⟨hmem, hfree⟩ := hkept j f hf
  exact ⟨hfree, hone, fun hp => hmem.trans (htext hp)⟩

theorem Inv.setLib {lib : LoadedLibrary} (h : s.Inv) (hlibs : u.libs = update s.libs i lib)
    (hother : ∀ j f, j ≠ i → (s.libs j).Shares f →
      u.mem f = s.mem f ∧ u.free f = false ∧ ¬ lib.Shares f)
    (hself : ∀ f, lib.Shares f →
      u.free f = false ∧ (lib.inProgress = false → u.mem f = lib.published f)) : u.Inv := by
  intro j f hf
  rw [hlibs] at hf ⊢
  by_cases hj : j = i
  · subst j
    rw [update_self] at hf ⊢
    refine ⟨(hself f hf).1, fun k hk => by_contra fun hne => ?_, (hself f hf).2⟩
    rw [update_of_ne hne] at hk
    exact (hother k f hne hk).2.2 hf
  · rw [update_of_ne hj] at hf ⊢
    obtain ⟨hmem, hfree, hno⟩ := hother j f hj hf
    refine ⟨hfree, fun k hk => ?_, fun hp => hmem.trans ((h j f hf).2.2 hp)⟩
    by_cases hki : k = i
    · subst k
      exact absurd (update_self i lib s.libs ▸ hk) hno
    · rw [update_of_ne hki] at hk
      exact (h j f hf).2.1 k hk

theorem mapOnePage_eq_some {p : ImagePage} (h : s.mapOnePage t p = some u) :
    u.libs = s.libs ∧ s.free p.phys = true ∧ u.free p.phys = false ∧
      ∀ f, f ≠ p.phys → u.mem f = s.mem f ∧ u.free f = s.free f := by
  obtain ⟨hfree, rfl⟩ := ite_some_none_eq_some.mp h
  exact ⟨rfl, hfree, update_self .., fun f hf => ⟨update_of_ne hf .., update_of_ne hf ..⟩⟩

/-- Allocated frames are kept, and the frames of the image were free. -/
theorem mapImage_eq_some {ps : List ImagePage} (h : s.mapImage t ps = some u) :
    u.libs = s.libs ∧ (∀ f, s.free f = false → u.mem f = s.mem f ∧ u.free f = false) ∧
      ∀ p ∈ ps, s.free p.phys = true ∧ u.free p.phys = false := by
  induction ps generalizing s with
  | nil =>
    cases h
    simp
  | cons p ps ih =>
    obtain ⟨v, hv, hrest⟩ := bind_eq_some_iff.mp h
    obtain ⟨hlibs, hfree, htaken, hother⟩ := mapOnePage_eq_some hv
    obtain ⟨hlibs', hkept, hps⟩ := ih hrest
    refine ⟨hlibs'.trans hlibs, ?_, ?_⟩ <;> grind

/-- A table writes only to the frames of its targets. -/
theorem applyRelas_frame (bias : Word) (symbol : Word → Option Word) (table : List ELF64Rela) :
    (s.applyRelas t bias symbol table).1.libs = s.libs ∧
    (s.applyRelas t bias symbol table).1.free = s.free ∧
      ∀ f, (∀ r ∈ table, f ∉ s.table t ((r.rOffset + bias).toNat / 4096)) →
        (s.applyRelas t bias symbol table).1.mem f = s.mem f := by
  induction table generalizing s with
  | nil => exact ⟨rfl, rfl, fun _ _ => rfl⟩
  | cons r rs ih =>
    rw [applyRelas]
    split_ifs
    · exact ⟨rfl, rfl, fun _ _ => rfl⟩
    split
    · exact ⟨rfl, rfl, fun _ _ => rfl⟩
    rename_i v hv
    obtain ⟨value, -, hv⟩ := bind_eq_some_iff.mp hv
    obtain ⟨-, hv⟩ := ite_none_left_eq_some.mp hv
    obtain ⟨g, hg, rfl⟩ := map_eq_some_iff.mp hv
    obtain ⟨hlibs, hfree, hmem⟩ := ih (s := { s with mem := _ })
    refine ⟨hlibs, hfree, fun f hf => ?_⟩
    rw [hmem f fun q hq => hf q (mem_cons_of_mem _ hq)]
    exact update_of_ne (by rintro rfl; exact hf r mem_cons_self hg) ..

theorem Inv.step (a : Action n) (h : s.Inv) (hok : s.Spares a) (hs : s.step a = some u) :
    u.Inv := by
  cases a with try cases hs
  | mapImage t ps =>
    obtain ⟨hlibs, hkept, -⟩ := mapImage_eq_some hs
    exact h.keep hlibs fun j f hf => hkept f (h j f hf).1
  | loadFresh t i loadBase ps =>
    obtain ⟨-, hs⟩ := ite_none_right_eq_some.mp hs
    obtain ⟨v, hv, rfl⟩ := map_eq_some_iff.mp hs
    obtain ⟨hlibs, hkept, hps⟩ := mapImage_eq_some hv
    have hnew : ∀ f, (f, false) ∈ ps.map (fun p => (p.phys, p.writable)) →
        s.free f = true ∧ v.free f = false := by
      intro f hf
      obtain ⟨p, hp, he⟩ := mem_map.mp hf
      obtain ⟨rfl, -⟩ := Prod.mk.inj he
      exact hps p hp
    refine h.setLib (congrArg (update · i _) hlibs) ?_ fun f hf => ⟨(hnew f hf).2, nofun⟩
    intro j f _ hf
    obtain ⟨hm, hu⟩ := hkept f (h j f hf).1
    exact ⟨hm, hu, fun hn => Bool.false_ne_true ((h j f hf).1.symm.trans (hnew f hn).1)⟩
  | publish i =>
    obtain ⟨-, rfl⟩ := ite_some_none_eq_some.mp hs
    refine h.setLib rfl ?_ fun f hf => ⟨(h i f hf).1, fun _ => rfl⟩
    exact fun j f hj hf => ⟨rfl, (h j f hf).1, fun hi => hj ((h i f hi).2.1 j hf)⟩
  | mapHit t i k phys content =>
    obtain ⟨-, hs⟩ := ite_none_left_eq_some.mp hs
    split at hs
    · cases hs
    · cases hs
      exact h.keep rfl fun j f hf => ⟨rfl, (h j f hf).1⟩
    · obtain ⟨hlibs, hfree, -, hother⟩ := mapOnePage_eq_some hs
      refine h.keep hlibs fun j f hf => ?_
      grind [h j f hf]
  | applyRelaTable t linkBase loadBase symbol table =>
    rw [applyRelaTable]
    split_ifs
    · exact h
    · obtain ⟨hlibs, hfree, hmem⟩ := s.applyRelas_frame (t := t) (loadBase - linkBase) symbol table
      refine h.keep hlibs fun j f hf => ⟨?_, hfree ▸ (h j f hf).1⟩
      exact hmem f fun r hr hm => hok f (mem_filterMap.mpr ⟨r, hr, hm⟩) j hf
  | release i =>
    rw [release]
    split_ifs
    · exact h
    · refine h.setLib rfl (fun j f hj hf => ⟨rfl, ?_, nofun⟩) nofun
      have hi : ¬ (s.libs i).Shares f := fun hi => hj ((h i f hi).2.1 j hf)
      simp [(h j f hf).1, hi]
  | freeUserPages t pages =>
    refine h.keep rfl fun j f hf => ⟨rfl, ?_⟩
    have hno : f ∉ pages.filterMap (s.table t) := fun hm => hok f hm j hf
    simp only [freeUserPages, (h j f hf).1, decide_eq_false hno, Bool.or_false]

end LoadState

end Nexios.Elf
