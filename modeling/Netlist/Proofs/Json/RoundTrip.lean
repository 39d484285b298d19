import Netlist.Proofs.Json.Tokens

/-!
# Reading printed values

The machine puts the tokens of a value together to the value and leaves the open arrays and objects
around it as they are. So every value is read back from its text.

## Main results

* `Netlist.Json.Machine.run_tokensOf`: the move over the tokens of a value.
* `Netlist.Json.parse?_pretty`: a printed value is read back.
-/

namespace Netlist.Json

namespace Machine

/-- No value begins with the token that ends an array. -/
private theorem run_firstElement (j : Json) (stack : List Frame) (ts : List Token) :
    run ⟨.array [] :: stack, .firstElement⟩ (tokensOf j ++ ts) =
      run ⟨.array [] :: stack, .value⟩ (tokensOf j ++ ts) := by
  match j with
  | .null | .bool _ | .number _ | .string _ | .array [] | .array (_ :: _) | .object []
  | .object ((_, _) :: _) =>
    rw [tokensOf]
    rfl

mutual

/-- Over the tokens of a value the machine moves to where the value is accepted. -/
theorem run_tokensOf (j : Json) (stack : List Frame) (ts : List Token) :
    run ⟨stack, .value⟩ (tokensOf j ++ ts) = (accept j stack).bind fun m => run m ts :=
  match j with
  | .null | .bool _ | .number _ | .string _ | .array [] | .object [] => by
    rw [tokensOf]
    rfl
  | .array (e :: es) => by
    rw [tokensOf, List.cons_append, List.append_assoc]
    calc run ⟨stack, .value⟩ (.openArray :: (tokensOf e ++ (tokensOfElements es ++ ts)))
        = run ⟨.array [] :: stack, .firstElement⟩ (tokensOf e ++ (tokensOfElements es ++ ts)) := rfl
      _ = run ⟨.array [] :: stack, .value⟩ (tokensOf e ++ (tokensOfElements es ++ ts)) :=
        run_firstElement e stack _
      _ = run ⟨.array [e] :: stack, .more⟩ (tokensOfElements es ++ ts) :=
        run_tokensOf e (.array [] :: stack) _
      _ = _ := run_tokensOfElements es [e] stack ts
  | .object ((name, value) :: ms) => by
    rw [tokensOf, List.cons_append, List.cons_append, List.cons_append, List.append_assoc]
    calc run ⟨stack, .value⟩ (.openObject :: .string name :: .colon ::
          (tokensOf value ++ (tokensOfMembers ms ++ ts)))
        = run ⟨.member [] name :: stack, .value⟩
            (tokensOf value ++ (tokensOfMembers ms ++ ts)) := rfl
      _ = run ⟨.object [(name, value)] :: stack, .more⟩ (tokensOfMembers ms ++ ts) :=
        run_tokensOf value (.member [] name :: stack) _
      _ = _ := run_tokensOfMembers ms [(name, value)] stack ts

theorem run_tokensOfElements (es before : List Json) (stack : List Frame) (ts : List Token) :
    run ⟨.array before :: stack, .more⟩ (tokensOfElements es ++ ts) =
      (accept (.array (before ++ es)) stack).bind fun m => run m ts :=
  match es with
  | [] => by
    rw [tokensOfElements, List.append_nil]
    rfl
  | e :: es => by
    rw [tokensOfElements, List.cons_append, List.append_assoc]
    calc run ⟨.array before :: stack, .more⟩ (.comma :: (tokensOf e ++ (tokensOfElements es ++ ts)))
        = run ⟨.array before :: stack, .value⟩ (tokensOf e ++ (tokensOfElements es ++ ts)) := rfl
      _ = run ⟨.array (before ++ [e]) :: stack, .more⟩ (tokensOfElements es ++ ts) :=
        run_tokensOf e (.array before :: stack) _
      _ = (accept (.array (before ++ [e] ++ es)) stack).bind fun m => run m ts :=
        run_tokensOfElements es (before ++ [e]) stack ts
      _ = _ := by rw [List.append_assoc, List.singleton_append]

theorem run_tokensOfMembers (ms before : List (Option String × Json)) (stack : List Frame)
    (ts : List Token) : run ⟨.object before :: stack, .more⟩ (tokensOfMembers ms ++ ts) =
      (accept (.object (before ++ ms)) stack).bind fun m => run m ts :=
  match ms with
  | [] => by
    rw [tokensOfMembers, List.append_nil]
    rfl
  | (name, value) :: ms => by
    rw [tokensOfMembers, List.cons_append, List.cons_append, List.cons_append, List.append_assoc]
    calc run ⟨.object before :: stack, .more⟩ (.comma :: .string name :: .colon ::
          (tokensOf value ++ (tokensOfMembers ms ++ ts)))
        = run ⟨.member before name :: stack, .value⟩
            (tokensOf value ++ (tokensOfMembers ms ++ ts)) := rfl
      _ = run ⟨.object (before ++ [(name, value)]) :: stack, .more⟩ (tokensOfMembers ms ++ ts) :=
        run_tokensOf value (.member before name :: stack) _
      _ = (accept (.object (before ++ [(name, value)] ++ ms)) stack).bind fun m => run m ts :=
        run_tokensOfMembers ms (before ++ [(name, value)]) stack ts
      _ = _ := by rw [List.append_assoc, List.singleton_append]

end

end Machine

/-- The tokens of a value are put together to the value. -/
theorem ofTokens?_tokensOf (j : Json) : ofTokens? (tokensOf j) = some j := by
  have h := Machine.run_tokensOf j [] []
  rw [List.append_nil] at h
  rw [ofTokens?, h]
  rfl

/-- A printed value is read back. -/
theorem parse?_pretty (j : Json) : parse? j.pretty = some j := by
  have h := tokens?_render 0 j EndsNumber.nil
  rw [List.append_nil] at h
  rw [parse?, pretty, String.toList_ofList, h, tokens?, Option.map_some, List.append_nil,
    Option.bind_some, ofTokens?_tokensOf]

end Netlist.Json
