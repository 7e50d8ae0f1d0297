import Mathlib.Data.List.Basic
import Mathlib.Data.Nat.Basic
import Mathlib.Order.Basic

/-!
A record that a log of patches updates. Each entry of the log sets some fields
and leaves the others, so a field is current once no later entry sets it.
-/

namespace PatchLog

open List Option

variable {Field : Type*} {Value : Field → Type*} {ε : Type*}

/-- Sets the fields that the patch has. -/
def overlay (record : ∀ field, Value field) (patch : ∀ field, Option (Value field))
    (field : Field) : Value field :=
  (patch field).getD (record field)

variable (patch : ε → ∀ field, Option (Value field)) (base : ∀ field, Value field)

/-- The record after the first `version` entries. -/
def version (log : List ε) (version : ℕ) : ∀ field, Value field :=
  (log.take version).foldl (fun record entry => overlay record (patch entry)) base

/-- An entry of the log sets a field. -/
def sets (log : List ε) (entry : ℕ) (field : Field) : Bool :=
  (log[entry]?).any fun e => (patch e field).isSome

variable {patch base} {log : List ε} {field : Field} {k n : ℕ}

theorem version_append {extra : List ε} (hk : k ≤ log.length) :
    version patch base (log ++ extra) k = version patch base log k := by
  simp only [version, take_append_of_le_length hk]

theorem version_succ {entry : ε} (hentry : log[k]? = some entry) :
    version patch base log (k + 1) = overlay (version patch base log k) (patch entry) := by
  simp only [version, take_add_one, hentry, toList_some, foldl_append, foldl_cons, foldl_nil]

theorem version_snoc {entry : ε} : version patch base (log ++ [entry]) (log.length + 1) =
      overlay (version patch base log log.length) (patch entry) := by
  have hentry : (log ++ [entry])[log.length]? = some entry := by simp
  rw [version_succ hentry, version_append (Nat.le_refl _)]

theorem version_of_sets {entry : ε} {value : Value field} (hentry : log[k]? = some entry)
    (hvalue : patch entry field = some value) : version patch base log (k + 1) field = value := by
  rw [version_succ hentry, overlay, hvalue, getD_some]

theorem version_eq_of_unset (hkn : k ≤ n)
    (hunset : ∀ entry, k ≤ entry → entry < n → sets patch log entry field = false) :
    version patch base log n field = version patch base log k field := by
  induction n, hkn using Nat.le_induction with
  | base => rfl
  | succ n hkn ih =>
    have hpre := ih fun entry hlow hhigh => hunset entry hlow (Nat.lt_succ_of_lt hhigh)
    rw [← hpre]
    cases hentry : log[n]? with
    | none =>
      have hlen : log.length ≤ n := List.getElem?_eq_none_iff.mp hentry
      simp only [version, take_of_length_le hlen, take_of_length_le (Nat.le_succ_of_le hlen)]
    | some e =>
      have hnone := hunset n hkn (Nat.lt_succ_self n)
      simp only [sets, hentry, any_some, isSome_eq_false_iff, isNone_iff_eq_none] at hnone
      rw [version_succ hentry, overlay, hnone, getD_none]

theorem sets_append {extra : List ε} {entry : ℕ} (hentry : entry < log.length) :
    sets patch (log ++ extra) entry field = sets patch log entry field := by
  simp only [sets, getElem?_append_left hentry]

end PatchLog
