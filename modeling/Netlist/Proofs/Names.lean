import Mathlib.Data.List.TakeWhile
import Mathlib.Tactic.Common
import Netlist.Project.Config

/-!
# Joined names

The separator has a character that no identifier has. So a joined name is no identifier, and it
tells the identifier that it begins with from the rest.

## Main definitions

* `Netlist.Boundary.Separates`: the separator keeps joined names apart from identifiers.

## Main results

* `Netlist.Boundary.not_isIdentifier_join`: a joined name is no identifier.
* `Netlist.Boundary.join_inj_of_isIdentifier`: joined names that begin with identifiers are taken
  apart in one way.
* `Netlist.Config.check_of_ofText`: the boundary names in accepted settings are fit for use.
-/

namespace Netlist

theorem all_isPart_of_isIdentifier {name : String} (h : isIdentifier name = true) :
    ∀ x ∈ name.toList, Identifier.isPart x = true := by
  unfold isIdentifier at h
  cases hl : name.toList with
  | nil => exact fun _ hx => nomatch hx
  | cons x xs =>
    rw [hl, Identifier.spells, Bool.and_eq_true, List.all_eq_true] at h
    exact List.forall_mem_cons.2 ⟨Identifier.isPart_of_isStart h.1, h.2⟩

namespace Boundary

variable {b : Boundary} {n n' x x' : String}

/-- The separator has a character that is in no identifier. -/
def Separates (b : Boundary) : Prop :=
  b.separator.toList.all Identifier.isPart = false

instance (b : Boundary) : Decidable b.Separates :=
  inferInstanceAs (Decidable (_ = false))

theorem toList_join : (b.join n x).toList = n.toList ++ (b.separator.toList ++ x.toList) := by
  rw [join, String.toList_append, String.toList_append, List.append_assoc]

/-- A joined name is no identifier. -/
theorem not_isIdentifier_join (hb : b.Separates) : ¬isIdentifier (b.join n x) = true := by
  intro h
  obtain ⟨y, hy, hp⟩ := List.all_eq_false.1 hb
  refine hp (all_isPart_of_isIdentifier h y ?_)
  rw [toList_join]
  exact List.mem_append_right _ (List.mem_append_left _ hy)

private theorem takeWhile_join (hb : b.Separates) (hn : isIdentifier n = true) :
    (b.join n x).toList.takeWhile Identifier.isPart =
      n.toList ++ b.separator.toList.takeWhile Identifier.isPart := by
  rw [toList_join, List.takeWhile_append_of_pos (all_isPart_of_isIdentifier hn),
    List.takeWhile_append, if_neg]
  -- the identifier characters end within the separator
  intro hlen
  have hall := List.takeWhile_eq_self_iff.1 (List.takeWhile_prefix _ |>.eq_of_length hlen)
  rw [← List.all_eq_true, hb] at hall
  cases hall

/-- Joined names that begin with identifiers are taken apart in one way. -/
theorem join_inj_of_isIdentifier (hb : b.Separates) (hn : isIdentifier n = true)
    (hn' : isIdentifier n' = true) (h : b.join n x = b.join n' x') : n = n' ∧ x = x' := by
  have htake := congrArg (fun s : String => s.toList.takeWhile Identifier.isPart) h
  simp only [takeWhile_join hb hn, takeWhile_join hb hn', List.append_cancel_right_eq] at htake
  obtain rfl := String.toList_inj.1 htake
  exact ⟨rfl, (String.append_right_inj _).1 h⟩

/-- What makes boundary names fit for use. -/
theorem check_eq_ok_iff : b.check = .ok () ↔ isIdentifier b.inputBlock = true ∧
    isIdentifier b.outputBlock = true ∧ b.inputBlock ≠ b.outputBlock ∧ b.Separates := by
  unfold check Separates
  split_ifs <;> simp_all

end Boundary

/-- The boundary names in accepted settings are fit for use. -/
theorem Config.check_of_ofText {s : String} {config : Config} (h : Config.ofText s = .ok config) :
    config.boundary.check = .ok () := by
  unfold Config.ofText at h
  split at h
  · cases h
  · rename_i d _
    cases hd : d.check with
    | error e =>
      rw [hd] at h
      cases h
    | ok u =>
      rw [hd] at h
      cases h
      unfold Config.check at hd
      split_ifs at hd
      cases hb : d.boundary.check with
      | error e =>
        rw [hb] at hd
        cases hd
      | ok u => rfl

end Netlist
