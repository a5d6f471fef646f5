import Mathlib.Order.Basic
import TreeScribe.Flow.Status

namespace TreeScribe.Flow.Status

instance : LE Status where
  le a b := a = b ∨ a = unreachable ∨ b = potential ∨ a = assigned ∧ b ≠ unreachable

instance : DecidableLE Status := fun a b =>
  inferInstanceAs (Decidable
      (a = b ∨ a = unreachable ∨ b = potential ∨ a = assigned ∧ b ≠ unreachable))

instance : PartialOrder Status where
  le_refl _ := .inl rfl
  le_trans a b c := by cases a <;> cases b <;> cases c <;> decide
  le_antisymm a b := by cases a <;> cases b <;> decide

variable {a a' b b' : Status}

theorem unreachable_le : unreachable ≤ a := .inr (.inl rfl)

theorem eq_unreachable_of_le (h : a ≤ unreachable) : a = unreachable := le_antisymm h unreachable_le

theorem ne_unreachable_of_le (h : a ≤ b) (ha : a ≠ unreachable) : b ≠ unreachable := by
  rintro rfl
  exact ha (eq_unreachable_of_le h)

theorem clean_clean : a.clean.clean = a.clean := by cases a <;> rfl

theorem clean_ne_unreachable (ha : a ≠ unreachable) : a.clean ≠ unreachable := by
  revert ha
  cases a <;> decide

theorem clean_mono (h : a ≤ b) : a.clean ≤ b.clean := by
  revert h
  cases a <;> cases b <;> decide

theorem ifTrue_mono (h : a ≤ b) : a.ifTrue ≤ b.ifTrue := by
  revert h
  cases a <;> cases b <;> decide

theorem ifFalse_mono (h : a ≤ b) : a.ifFalse ≤ b.ifFalse := by
  revert h
  cases a <;> cases b <;> decide

theorem negate_mono (h : a ≤ b) : a.negate ≤ b.negate := by
  revert h
  cases a <;> cases b <;> decide

theorem ifTrue_ne_unreachable (ha : a ≠ unreachable) : a.ifTrue ≠ unreachable := by
  revert ha
  cases a <;> decide

theorem ifFalse_ne_unreachable (ha : a ≠ unreachable) : a.ifFalse ≠ unreachable := by
  revert ha
  cases a <;> decide

theorem negate_ne_unreachable (ha : a ≠ unreachable) : a.negate ≠ unreachable := by
  revert ha
  cases a <;> decide

theorem andThen_mono (h : a ≤ a') (h' : b ≤ b') (ha : a ≠ unreachable) (hb : b ≠ unreachable) :
    a.andThen b ≤ a'.andThen b' := by
  revert h h' ha hb
  cases a <;> cases a' <;> cases b <;> cases b' <;> decide

theorem orElse_mono (h : a ≤ a') (h' : b ≤ b') (ha : a ≠ unreachable) (hb : b ≠ unreachable) :
    a.orElse b ≤ a'.orElse b' := by
  revert h h' ha hb
  cases a <;> cases a' <;> cases b <;> cases b' <;> decide

theorem andThen_ne_unreachable : a.andThen b ≠ unreachable := by
  cases a <;> cases b <;> decide

theorem orElse_ne_unreachable : a.orElse b ≠ unreachable := by
  cases a <;> cases b <;> decide

theorem merge_mono (h : a.clean ≤ a'.clean) (h' : b.clean ≤ b'.clean) :
    a.clean.merge b.clean ≤ a'.clean.merge b'.clean := by
  revert h h'
  cases a <;> cases a' <;> cases b <;> cases b' <;> decide

theorem clean_merge : (a.clean.merge b.clean).clean = a.clean.merge b.clean := by
  cases a <;> cases b <;> decide

theorem merge_eq_unreachable : a.merge b = unreachable ↔ a = unreachable ∧ b = unreachable := by
  cases a <;> cases b <;> decide

theorem merge_ne_unreachable (ha : a ≠ unreachable) : a.merge b ≠ unreachable := by
  revert ha
  cases a <;> cases b <;> decide

end TreeScribe.Flow.Status
