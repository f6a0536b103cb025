import GarbledCircuits.Proofs.Json.Scanning

/-!
# Reading JSON that was written

The reader turns the tokens of a value into that value, whatever is open
around it and whatever comes after it.  So a written text is read to its end,
and what is read is what was written.
-/

namespace GarbledCircuits.Json

namespace Reading

variable {frames next : List Frame} {place found : Place} {token : Token}
  {rest : List Token}

/-- Reading goes on as long as something is open or has still to begin. -/
theorem read_of_step
    (hopen : frames ≠ [] ∨ ∀ value, place ≠ .done value)
    (hstep : step frames place token = some (next, found)) :
    read frames place (token :: rest) = read next found rest := by
  rw [read]
  · rw [hstep]
  · intro value hframes hplace
    cases hopen with
    | inl hframe => exact hframe hframes
    | inr hbegin => exact hbegin value hplace

theorem read_value_of_step
    (hstep : step frames .value token = some (next, found)) :
    read frames .value (token :: rest) = read next found rest :=
  read_of_step (Or.inr nofun) hstep

theorem read_done_of_step
    {frame : Frame} {value : Reading}
    (hstep : step (frame :: frames) (.done value) token = some (next, found)) :
    read (frame :: frames) (.done value) (token :: rest) =
      read next found rest :=
  read_of_step (Or.inl (List.cons_ne_nil frame frames)) hstep

theorem read_name
    (fields : List (List Char × Reading)) (literal : List Char) :
    read frames (.name fields) (.string literal :: .colon :: rest) =
      read (.object fields literal :: frames) .value rest := by
  have hname : step frames (.name fields) (.string literal) =
      some (frames, .colon fields literal) := by
    cases fields <;> rfl
  have hnamed : read frames (.name fields)
      (.string literal :: .colon :: rest) =
        read frames (.colon fields literal) (.colon :: rest) :=
    read_of_step (Or.inr nofun) hname
  exact hnamed.trans (read_of_step (Or.inr nofun) rfl)

-- What is open around a value stays as it is while the value is read, so the
-- frames are the same on both sides and need no invariant.
mutual

theorem read_tokens (frames : List Frame) (value : Json) (rest : List Token) :
    read frames .value (tokens value ++ rest) =
      read frames (.done (ofJson value)) rest := by
  match value with
  | .null => exact read_value_of_step rfl
  | .bool value => exact read_value_of_step rfl
  | .number value => exact read_value_of_step rfl
  | .string text => exact read_value_of_step rfl
  | .array [] =>
      have hopen : read frames .value (.openArray :: .closeArray :: rest) =
          read (.array [] :: frames) .value (.closeArray :: rest) :=
        read_value_of_step rfl
      exact hopen.trans (read_value_of_step rfl)
  | .array (item :: items) =>
      have hopen : read frames .value (.openArray :: (tokens item ++
          (itemTokens [.comma] items ++ .closeArray :: rest))) =
            read (.array [] :: frames) .value (tokens item ++
              (itemTokens [.comma] items ++ .closeArray :: rest)) :=
        read_value_of_step rfl
      rw [read_tokens, read_items] at hopen
      simpa [tokens, itemTokens, ofJson, ofItems] using hopen
  | .object [] =>
      have hopen : read frames .value (.openObject :: .closeObject :: rest) =
          read frames (.name []) (.closeObject :: rest) :=
        read_value_of_step rfl
      exact hopen.trans (read_of_step (Or.inr nofun) rfl)
  | .object ((name, value) :: fields) =>
      have hopen : read frames .value (.openObject ::
          .string (Quoted.encode name).toList :: .colon :: (tokens value ++
            (fieldTokens [.comma] fields ++ .closeObject :: rest))) =
          read frames (.name []) (.string (Quoted.encode name).toList ::
            .colon :: (tokens value ++
              (fieldTokens [.comma] fields ++ .closeObject :: rest))) :=
        read_value_of_step rfl
      rw [read_name, read_tokens, read_fields] at hopen
      simpa [tokens, fieldTokens, ofJson, ofFields] using hopen

theorem read_items (frames : List Frame) (before : List Reading)
    (value : Reading) (items : List Json) (rest : List Token) :
    read (.array before :: frames) (.done value)
        (itemTokens [.comma] items ++ .closeArray :: rest) =
      read frames
        (.done (array ((value :: before).reverse ++ ofItems items))) rest := by
  match items with
  | [] =>
      rw [ofItems, List.append_nil]
      exact read_done_of_step rfl
  | item :: items =>
      have hcomma : read (.array before :: frames) (.done value)
          (.comma :: (tokens item ++
            (itemTokens [.comma] items ++ .closeArray :: rest))) =
          read (.array (value :: before) :: frames) .value (tokens item ++
            (itemTokens [.comma] items ++ .closeArray :: rest)) :=
        read_done_of_step rfl
      rw [read_tokens, read_items] at hcomma
      simpa [itemTokens, ofItems] using hcomma

theorem read_fields (frames : List Frame)
    (before : List (List Char × Reading)) (name : List Char) (value : Reading)
    (fields : List (String × Json)) (rest : List Token) :
    read (.object before name :: frames) (.done value)
        (fieldTokens [.comma] fields ++ .closeObject :: rest) =
      read frames
        (.done (object (((name, value) :: before).reverse ++ ofFields fields)))
        rest := by
  match fields with
  | [] =>
      rw [ofFields, List.append_nil]
      exact read_done_of_step rfl
  | (other, next) :: fields =>
      have hcomma : read (.object before name :: frames) (.done value)
          (.comma :: .string (Quoted.encode other).toList :: .colon ::
            (tokens next ++
              (fieldTokens [.comma] fields ++ .closeObject :: rest))) =
          read frames (.name ((name, value) :: before))
            (.string (Quoted.encode other).toList :: .colon :: (tokens next ++
              (fieldTokens [.comma] fields ++ .closeObject :: rest))) :=
        read_done_of_step rfl
      rw [read_name, read_tokens, read_fields] at hcomma
      simpa [fieldTokens, ofFields] using hcomma

end

end Reading

/-- A written text holds the value that was written, and nothing else. -/
theorem Document.ofText_render (value : Json) :
    Document.ofText value.render = ⟨.ofJson value, true⟩ := by
  have htokens := Reading.read_tokens [] value []
  rw [List.append_nil] at htokens
  rw [Document.ofText, scan_render, htokens]
  rfl

end GarbledCircuits.Json
