import Mathlib.Algebra.Group.Nat.Defs
import Mathlib.Data.List.Basic

/-!
# The lookup of a symbol

`lookup_symbol` asks the image of the reference and then the other images of the closure, up to the
first that does not answer "not here". Two answers stop it too early: a WEAK entry without a
definition counts as found with the value 0, and a corrupt image ends the search.
-/

open List Option

namespace Nexios.Elf

structure ELF64Symbol where
  name : ℕ
  bind : ℕ
  shndx : ℕ
  value : ℕ

/-- An image of the closure; `linkBase` is what `image_range` computes. -/
structure Image where
  symtab : Option (List ELF64Symbol)
  strtab : List UInt8
  linkBase : Option ℕ
  mapped : ℕ

/-- The string at an offset, if its NUL stands in the table. -/
def nameAt (strtab : List UInt8) (offset : ℕ) : Option (List UInt8) :=
  let name := (strtab.drop offset).takeWhile (· ≠ 0)
  if name.length < (strtab.drop offset).length then some name else none

namespace Image

variable (img : Image) (name : List UInt8)

/-- A GLOBAL or WEAK symbol of that name. -/
def Named (sym : ELF64Symbol) : Prop :=
  (sym.bind = 1 ∨ sym.bind = 2) ∧ nameAt img.strtab sym.name = some name
  deriving Decidable

def bias : Option ℕ :=
  img.linkBase.bind fun base => if img.mapped < base then none else some (img.mapped - base)

def address (sym : ELF64Symbol) : Option ℕ :=
  img.bias.bind fun bias => if 2 ^ 64 ≤ bias + sym.value then none else some (bias + sym.value)

/-- The symbol at which the loop of `lookup_one` returns. -/
def entry : Option ELF64Symbol :=
  (img.symtab.getD []).find? fun sym => img.Named name sym ∧ (sym.shndx = 0 → sym.bind = 2)

/-- `none` if the symbol is not here, `some none` for a corrupt image. -/
def lookupOne : Option (Option ℕ) :=
  match img.symtab, img.bias with
  | none, _ => none
  | _, none => some none
  | _, _ => (img.entry name).map fun sym => if sym.shndx = 0 then some 0 else img.address sym

def definition : Option ℕ :=
  ((img.symtab.getD []).find? fun sym => img.Named name sym ∧ sym.shndx ≠ 0).bind img.address

def WeakRef : Prop := ∃ sym ∈ img.symtab.getD [], img.Named name sym ∧ sym.shndx = 0 ∧ sym.bind = 2
  deriving Decidable

variable {img name} {sym : ELF64Symbol} {r : Option ℕ}

theorem of_lookupOne_none (h : img.lookupOne name = none) :
    img.definition name = none ∧ ¬ img.WeakRef name := by
  have hentry : img.entry name = none := by
    unfold lookupOne at h
    split at h
    · next hnone => simp [entry, hnone]
    · cases h
    · exact map_eq_none_iff.mp h
  simp only [entry, find?_eq_none, decide_eq_true_eq] at hentry
  constructor
  · rw [definition, find?_eq_none.mpr, bind_none]
    intro sym hmem
    simp only [decide_eq_true_eq]
    exact fun hsym => hentry sym hmem ⟨hsym.1, (absurd · hsym.2)⟩
  · rintro ⟨sym, hmem, hname, -, hweak⟩
    exact hentry sym hmem ⟨hname, fun _ => hweak⟩

theorem definition_of_entry (h : img.entry name = some sym) (hdef : sym.shndx ≠ 0) :
    img.definition name = img.address sym := by
  obtain ⟨hp, pre, post, hsyms, hpre⟩ := find?_eq_some_iff_append.mp h
  have hfind : (img.symtab.getD []).find? (fun sym => img.Named name sym ∧ sym.shndx ≠ 0) =
      some sym := by
    refine find?_eq_some_iff_append.mpr ⟨?_, pre, post, hsyms, fun x hx => ?_⟩
    · exact decide_eq_true ⟨(of_decide_eq_true hp).1, hdef⟩
    · have hno := hpre x hx
      simp only [Bool.not_eq_true', decide_eq_false_iff_not] at hno ⊢
      exact fun hx => hno ⟨hx.1, (absurd · hx.2)⟩
  rw [definition, hfind, bind_some]

theorem lookupOne_cases (h : img.lookupOne name = some r) :
    r = none ∨ ∃ sym, img.entry name = some sym ∧
      r = if sym.shndx = 0 then some 0 else img.address sym := by
  unfold lookupOne at h
  split at h
  · cases h
  · exact .inl (some.inj h).symm
  · obtain ⟨sym, hsym, rfl⟩ := map_eq_some_iff.mp h
    exact .inr ⟨sym, hsym, rfl⟩

end Image

def searchOrder (images : List Image) (self : ℕ) : List Image :=
  images[self]?.toList ++ images.eraseIdx self

def lookupSymbol (images : List Image) (self : ℕ) (name : List UInt8) : Option ℕ :=
  ((searchOrder images self).findSome? (·.lookupOne name)).join

def firstDefinition (images : List Image) (self : ℕ) (name : List UInt8) : Option ℕ :=
  (searchOrder images self).findSome? (·.definition name)

/-- The symbol is a weak reference of the own image. -/
def WeakHere (images : List Image) (self : ℕ) (name : List UInt8) : Prop :=
  ∃ img ∈ images[self]?, img.WeakRef name
  deriving Decidable

/-- The first definition, or 0 for a weak reference that has none. -/
def resolution (images : List Image) (self : ℕ) (name : List UInt8) : Option ℕ :=
  (firstDefinition images self name).or (if WeakHere images self name then some 0 else none)

/-- The lookup is right, exactly if a corrupt image ends the search only where there is no
definition and no weak reference, and an undefined WEAK entry only where there is no definition, or
one at 0, and the reference is weak. -/
theorem lookupSymbol_eq_iff (images : List Image) (self : ℕ) (name : List UInt8) :
    lookupSymbol images self name = resolution images self name ↔
      ∀ img, (searchOrder images self).find? (fun img => (img.lookupOne name).isSome) = some img →
        (img.lookupOne name = some none →
          firstDefinition images self name = none ∧ ¬ WeakHere images self name) ∧
        (img.lookupOne name ≠ some none → ∀ sym ∈ img.entry name, sym.shndx = 0 →
          firstDefinition images self name = some 0 ∨
            firstDefinition images self name = none ∧ WeakHere images self name) := by
  cases hfind : (searchOrder images self).find? fun img => (img.lookupOne name).isSome with
  | none =>
    simp only [find?_eq_none, not_isSome_iff_eq_none] at hfind
    have hself : ¬ WeakHere images self name := by
      rintro ⟨img, hmem, hweak⟩
      have hin : img ∈ searchOrder images self := mem_append_left _ (mem_toList.mpr hmem)
      exact (Image.of_lookupOne_none (hfind img hin)).2 hweak
    rw [lookupSymbol, findSome?_eq_none_iff.mpr hfind, resolution, if_neg hself, firstDefinition,
      findSome?_eq_none_iff.mpr fun img hin => (Image.of_lookupOne_none (hfind img hin)).1]
    simp
  | some img =>
    obtain ⟨hsome, pre, post, horder, hpre⟩ := find?_eq_some_iff_append.mp hfind
    obtain ⟨r, hr⟩ := isSome_iff_exists.mp hsome
    simp only [Bool.not_eq_true', isSome_eq_false_iff, isNone_iff_eq_none] at hpre
    have hlookup : lookupSymbol images self name = r := by
      rw [lookupSymbol, horder, findSome?_append, findSome?_eq_none_iff.mpr hpre, none_or,
        findSome?_cons, hr]
      rfl
    rw [hlookup, eq_comm (a := r), resolution]
    simp only [some.injEq, forall_eq', hr]
    cases r with
    | none => simp
    | some v =>
      obtain ⟨sym, hsym, hval⟩ := (Image.lookupOne_cases hr).resolve_left (some_ne_none v)
      by_cases hdef : sym.shndx = 0
      · rw [if_pos hdef] at hval
        simp [hval, hsym, hdef]
      rw [if_neg hdef] at hval
      have hfirst : firstDefinition images self name = some v := by
        rw [firstDefinition, horder, findSome?_append, findSome?_eq_none_iff.mpr fun x hx =>
          (Image.of_lookupOne_none (hpre x hx)).1, none_or, findSome?_cons,
          Image.definition_of_entry hsym hdef, ← hval]
      simp [hfirst, hsym, hdef]

/-- The image of the reference has an undefined WEAK entry, and a library defines the symbol. -/
def weakClosure : List Image :=
  [⟨some [⟨0, 2, 0, 0⟩], [102, 0], some 0x400000, 0x400000⟩,
    ⟨some [⟨0, 1, 7, 0x80⟩], [102, 0], some 0, 0x600000⟩]

theorem weak_hides_definition :
    lookupSymbol weakClosure 0 [102] = some 0 ∧
      resolution weakClosure 0 [102] = some 0x600080 := by
  decide +kernel

end Nexios.Elf
