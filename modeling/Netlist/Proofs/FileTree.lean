import Mathlib
import Netlist.FileTree

/-!
# Paths and files

The names of a path and the extension of a file's name are found by splitting lists of characters.
A file in which a text was stored is read as this text.

## Main results

* `Netlist.splitOn_singleton`: a text is split at a character as the list of its characters is.
* `Netlist.FilePath.segments_eq`, `Netlist.FilePath.extension?_eq`, `Netlist.FilePath.join_eq`:
  operations on the text of a path.
* `Netlist.FileTree.find_of_follow`, `Netlist.FileTree.read_of_find`: finding and reading a file.
-/

namespace Netlist

/-! ### Splitting texts -/

section Split

open String (utf8Len)
open String.Pos.Raw (get next atEnd)

/-- Splitting at one character, from a place on: `m` has been read since the last cut, behind
`l`. -/
private theorem splitOnAux_ofList (c : Char) (l m r : List Char) (acc : List String) :
    (String.ofList (l ++ m ++ r)).splitOnAux (String.ofList [c]) ⟨utf8Len l⟩
        ⟨utf8Len l + utf8Len m⟩ 0 acc =
      acc.reverse ++ (List.splitOnPPrepend (· == c) r m.reverse).map String.ofList := by
  have hget : get (String.ofList [c]) 0 = c := String.get_of_valid [] [c]
  have hnext : next (String.ofList [c]) 0 = ⟨c.utf8Size⟩ := by
    simpa using String.next_of_valid [] c []
  have hend : atEnd (String.ofList [c]) ⟨c.utf8Size⟩ = true := by
    simpa using String.atEnd_of_valid [c] []
  induction r generalizing l m acc with
  | nil =>
    have hat : atEnd (String.ofList (l ++ m ++ [])) ⟨utf8Len l + utf8Len m⟩ = true := by
      simpa using String.atEnd_of_valid (l ++ m) []
    rw [String.splitOnAux, if_pos hat, String.extract_of_valid]
    simp
  | cons a r ih =>
    have hat : ¬atEnd (String.ofList (l ++ m ++ a :: r)) ⟨utf8Len l + utf8Len m⟩ = true := by
      rw [← String.utf8Len_append, String.atEnd_of_valid]
      exact List.cons_ne_nil a r
    have hget' : get (String.ofList (l ++ m ++ a :: r)) ⟨utf8Len l + utf8Len m⟩ = a := by
      simpa using String.get_of_valid (l ++ m) (a :: r)
    have hnext' : next (String.ofList (l ++ m ++ a :: r)) ⟨utf8Len l + utf8Len m⟩ =
        ⟨utf8Len l + utf8Len m + a.utf8Size⟩ := by
      simpa using String.next_of_valid (l ++ m) a r
    rw [String.splitOnAux, if_neg hat, hget, hget', hnext, hnext',
      List.splitOnPPrepend_cons_eq_if]
    simp only [hend, if_true]
    by_cases hac : (a == c) = true
    · -- the text is cut in front of the character
      have hback : (⟨utf8Len l + utf8Len m + a.utf8Size⟩ : String.Pos.Raw).unoffsetBy ⟨c.utf8Size⟩ =
          ⟨utf8Len l + utf8Len m⟩ := by
        rw [beq_iff_eq.1 hac]
        simp [String.Pos.Raw.unoffsetBy]
      rw [if_pos hac, if_pos hac, hback, String.extract_of_valid]
      simpa [Nat.add_assoc] using ih (l ++ m ++ [a]) [] (String.ofList m :: acc)
    · have hstay : (⟨utf8Len l + utf8Len m⟩ : String.Pos.Raw).unoffsetBy 0 =
          ⟨utf8Len l + utf8Len m⟩ := rfl
      rw [if_neg hac, if_neg hac, hstay, hnext']
      simpa [Nat.add_assoc] using ih l (m ++ [a]) acc

/-- A text is split at a character as the list of its characters is. -/
theorem splitOn_singleton (s : String) (c : Char) :
    s.splitOn (String.ofList [c]) = (s.toList.splitOn c).map String.ofList := by
  have hne : ¬(String.ofList [c] == "") = true := by simp
  rw [String.splitOn, if_neg hne]
  simpa [List.splitOn] using splitOnAux_ofList c [] [] s.toList []

end Split

/-! ### Paths -/

namespace FilePath

theorem segments_eq (path : String) :
    segments path = (path.toList.splitOn '/').map String.ofList :=
  splitOn_singleton path '/'

theorem extension?_eq (name : String) :
    extension? name = match ((name.toList.splitOn '.').map String.ofList).reverse with
      | last :: before :: more => if before = "" ∧ more = [] then none else some last
      | _ => none := by
  rw [← splitOn_singleton]
  rfl

theorem isAbsolute_eq_false_iff {path : String} :
    isAbsolute path = false ↔ ¬['/'] <+: path.toList :=
  String.startsWith_string_eq_false_iff

/-- A path that does not start at the root stands behind the path it is below, and a slash. -/
theorem join_eq {base path : String} (hpath : ¬['/'] <+: path.toList) (hbase : base ≠ "")
    (hslash : ¬['/'] <:+ base.toList) : join base path = base ++ "/" ++ path := by
  have hempty : base.isEmpty = false := by simpa using hbase
  have hend : base.endsWith "/" = false := by
    rw [← String.endsWith_toSlice, String.Slice.endsWith_string_eq_false_iff, String.copy_toSlice]
    exact hslash
  rw [join, isAbsolute_eq_false_iff.2 hpath, hempty, hend]
  rfl

end FilePath

/-! ### Files -/

/-- Where paths start at the root, a path leads where its names lead. -/
theorem FileTree.find_of_follow {t : FileTree} {path : String}
    {r : Except FileError (List String × Option FileNode)} (hhome : t.home = [])
    (h : t.follow [] ((path.toList.splitOn '/').map String.ofList) = r) : t.find path = r := by
  have hstart : t.start path = [] := by rw [start, hhome, ite_self]
  rw [find, hstart, FilePath.segments_eq, h]

/-- A file in which a text was stored is read as this text. -/
theorem FileTree.read_of_find {t : FileTree} {path text : String} {place : List String}
    (h : t.find path = .ok (place, some (.file text.toUTF8))) : t.read path = .ok text := by
  have htext : String.fromUTF8? text.toUTF8 = some text := by
    rw [String.fromUTF8?, String.toUTF8_eq_toByteArray, dif_pos text.isValidUTF8]
    rfl
  simp only [FileTree.read, h, bind, Except.bind, htext]

end Netlist
