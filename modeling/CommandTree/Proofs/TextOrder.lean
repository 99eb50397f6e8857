import CommandTree.Text
import Mathlib.Data.FinEnum
import Mathlib.Data.List.Lex
import Mathlib.Order.Lattice

/-!
The order of completions is a strict total order: of two different texts exactly one precedes the
other. So a list of texts can be put in order in one way only.
-/

namespace CommandTree

namespace Byte

theorem signed_inj {c d : UInt8} : signed c = signed d ↔ c = d := by
  refine ⟨fun h => UInt8.toNat_inj.mp ?_, congrArg signed⟩
  have hc := c.toNat_lt
  have hd := d.toNat_lt
  simp only [signed, UInt8.lt_iff_toNat_lt, UInt8.toNat_ofNat] at h
  split_ifs at h <;> omega

theorem lower_upper (c : UInt8) : lower (upper c) = lower c := by
  revert c
  decide +kernel

theorem upper_lower (c : UInt8) : upper (lower c) = upper c := by
  revert c
  decide +kernel

theorem upper_eq_iff {c d : UInt8} : upper c = upper d ↔ lower c = lower d :=
  ⟨fun h => by rw [← lower_upper, h, lower_upper], fun h => by rw [← upper_lower, h, upper_lower]⟩

end Byte

namespace Text

variable {a b c : Text}

/-- Texts have the same key exactly when they differ in case only. -/
theorem caselessKey_eq_iff : a.caselessKey = b.caselessKey ↔ a.lower = b.lower := by
  induction a generalizing b with
  | nil => cases b <;> simp [caselessKey, lower]
  | cons c a ih =>
    cases b with
    | nil => simp [caselessKey, lower]
    | cons d b =>
      have htail := ih (b := b)
      simp only [caselessKey, lower] at htail
      simp only [caselessKey, lower, List.map_cons, List.cons.injEq, Byte.signed_inj,
        Byte.upper_eq_iff, htail]

/-- The key decides, and between texts of one key the bytes do. -/
theorem precedes_iff :
    a.precedes b = true ↔
      a.caselessKey < b.caselessKey ∨ a.caselessKey = b.caselessKey ∧ a < b := by
  unfold precedes
  by_cases hab : a.caselessKey < b.caselessKey
  · simp [hab]
  · by_cases hba : b.caselessKey < a.caselessKey
    · simp [hab, hba, (ne_of_lt hba).symm]
    · have heq : a.caselessKey = b.caselessKey := le_antisymm (not_lt.mp hba) (not_lt.mp hab)
      simp [heq]

theorem precedes_irrefl (a : Text) : a.precedes a = false := by
  rw [← Bool.not_eq_true, precedes_iff]
  rintro (h | ⟨-, h⟩)
  · exact lt_irrefl _ h
  · exact List.lt_irrefl a h

theorem precedes_trans (hab : a.precedes b = true) (hbc : b.precedes c = true) :
    a.precedes c = true := by
  rw [precedes_iff] at hab hbc ⊢
  rcases hab with hab | ⟨hab, hlt⟩
  · rcases hbc with hbc | ⟨hbc, -⟩
    · exact .inl (lt_trans hab hbc)
    · exact .inl (hbc ▸ hab)
  · rcases hbc with hbc | ⟨hbc, hlt'⟩
    · exact .inl (hab ▸ hbc)
    · exact .inr ⟨hab.trans hbc, List.lt_trans hlt hlt'⟩

theorem eq_of_not_precedes (hab : a.precedes b = false) (hba : b.precedes a = false) : a = b := by
  rw [← Bool.not_eq_true, precedes_iff, not_or, not_and] at hab hba
  have hkey : a.caselessKey = b.caselessKey := le_antisymm (not_lt.mp hba.1) (not_lt.mp hab.1)
  exact List.le_antisymm (List.not_lt.mp (hba.2 hkey.symm)) (List.not_lt.mp (hab.2 hkey))

theorem precedes_asymm (hab : a.precedes b = true) : b.precedes a = false := by
  by_contra hba
  have haa := precedes_trans hab ((Bool.not_eq_false _).mp hba)
  simp [precedes_irrefl] at haa

/-- What precedes no text of a chain precedes none before it either. -/
theorem not_precedes_trans (hab : a.precedes b = false) (hbc : b.precedes c = false) :
    a.precedes c = false := by
  by_contra hac
  have hac := (Bool.not_eq_false _).mp hac
  by_cases hcb : c.precedes b = true
  · rw [precedes_trans hac hcb] at hab
    contradiction
  · obtain rfl := eq_of_not_precedes hbc ((Bool.not_eq_true _).mp hcb)
    rw [hac] at hab
    contradiction

theorem precedes_isStrictTotalOrder :
    IsStrictTotalOrder Text fun a b => a.precedes b = true where
  trichotomous _ _ hab hba :=
    eq_of_not_precedes ((Bool.not_eq_true _).mp hab) ((Bool.not_eq_true _).mp hba)
  irrefl a haa := by simp [precedes_irrefl] at haa
  trans _ _ _ := precedes_trans

end Text

end CommandTree
