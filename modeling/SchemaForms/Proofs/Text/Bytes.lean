import SchemaForms.Text.Utf8

/-!
Texts and their bytes: the bytes of a text give the text back, and an ASCII byte among them stands
for a character of the text.
-/

namespace SchemaForms.Utf8

/-- What holds of the characters of a list is found out by going through the list, not through all
characters that there are. -/
instance (priority := 2000) decidableForallMem {cs : List Char} {p : Char → Prop} [DecidablePred p] :
    Decidable (∀ c ∈ cs, p c) :=
  List.decidableBAll p cs

/-- The bytes of characters. -/
def bytes (cs : List Char) : Bytes := cs.flatMap String.utf8EncodeChar

@[simp] theorem bytes_nil : bytes [] = [] := rfl

@[simp] theorem bytes_append (cs ds : List Char) : bytes (cs ++ ds) = bytes cs ++ bytes ds :=
  List.flatMap_append

theorem bytes_cons (c : Char) (cs : List Char) :
    bytes (c :: cs) = String.utf8EncodeChar c ++ bytes cs := List.flatMap_cons

theorem encode_eq (s : String) : encode s = bytes s.toList := rfl

theorem toByteArray_eq (s : String) : s.toByteArray = (bytes s.toList).toByteArray := by
  conv => lhs; rw [← String.ofList_toList (s := s)]
  rfl

/-- The bytes of a text are read back as the text. -/
theorem decode_bytes (s : String) : decode (bytes s.toList) = some s := by
  have hvalid : (⟨(bytes s.toList).toArray⟩ : ByteArray) = s.toByteArray := by
    rw [toByteArray_eq]
    exact ByteArray.ext List.data_toByteArray.symm
  rw [decode, hvalid, String.fromUTF8?, dif_pos s.isValidUTF8]
  rfl

theorem bytes_of_decode {bs : Bytes} {s : String} (h : decode bs = some s) :
    bytes s.toList = bs := by
  unfold decode String.fromUTF8? at h
  split at h
  · have hs : s.toByteArray = ⟨bs.toArray⟩ := by
      rw [← Option.some.inj h]
      rfl
    rw [toByteArray_eq] at hs
    have hlist := congrArg (·.data.toList) hs
    simpa using hlist
  · cases h

theorem eq_of_bytes {s t : String} (h : bytes s.toList = bytes t.toList) : s = t := by
  have hdecode := decode_bytes s
  rw [h, decode_bytes] at hdecode
  exact (Option.some.inj hdecode).symm

/-- ASCII characters are one byte each, and other characters have no byte in common with them. -/
theorem utf8EncodeChar_cases (c : Char) :
    (c.toNat < 0x80 ∧ String.utf8EncodeChar c = [UInt8.ofNat c.toNat]) ∨
      0x80 ≤ c.toNat ∧ String.utf8EncodeChar c ≠ [] ∧
        ∀ b ∈ String.utf8EncodeChar c, 0x80 ≤ b.toNat := by
  have hval : c.val.toNat = c.toNat := rfl
  unfold String.utf8EncodeChar
  dsimp only
  rw [hval]
  split
  · exact .inl ⟨by omega, rfl⟩
  · refine .inr ⟨by omega, ?_⟩
    split
    · simp only [ne_eq, reduceCtorEq, not_false_eq_true, List.mem_cons, List.not_mem_nil, or_false,
        forall_eq_or_imp, forall_eq, UInt8.toNat_ofNat', true_and]
      omega
    · split
      · simp only [ne_eq, reduceCtorEq, not_false_eq_true, List.mem_cons, List.not_mem_nil,
          or_false, forall_eq_or_imp, forall_eq, UInt8.toNat_ofNat', true_and]
        omega
      · simp only [ne_eq, reduceCtorEq, not_false_eq_true, List.mem_cons, List.not_mem_nil,
          or_false, forall_eq_or_imp, forall_eq, UInt8.toNat_ofNat', true_and]
        omega

theorem utf8EncodeChar_ne_nil (c : Char) : String.utf8EncodeChar c ≠ [] := by
  rcases utf8EncodeChar_cases c with ⟨-, he⟩ | ⟨-, hne, -⟩
  · rw [he]
    simp
  · exact hne

/-- The ASCII byte of a character. -/
def byteOf (c : Char) : UInt8 := UInt8.ofNat c.toNat

theorem bytes_cons_ascii {c : Char} (hc : c.toNat < 0x80) (cs : List Char) :
    bytes (c :: cs) = byteOf c :: bytes cs := by
  rw [bytes_cons]
  rcases utf8EncodeChar_cases c with ⟨-, h⟩ | ⟨h, -⟩
  · rw [h]
    rfl
  · omega

/-- An ASCII byte of a text is there for a character. -/
theorem mem_bytes {b : UInt8} (hb : b.toNat < 0x80) {cs : List Char} (h : b ∈ bytes cs) :
    Char.ofNat b.toNat ∈ cs := by
  obtain ⟨c, hc, hbc⟩ := List.mem_flatMap.1 h
  rcases utf8EncodeChar_cases c with ⟨hascii, he⟩ | ⟨-, -, hhigh⟩
  · rw [he, List.mem_singleton] at hbc
    have hn : b.toNat = c.toNat := by
      rw [hbc, UInt8.toNat_ofNat', Nat.mod_eq_of_lt (by omega)]
    rw [hn, Char.ofNat_toNat]
    exact hc
  · have := hhigh b hbc
    omega

theorem toNat_byteOf {c : Char} (hc : c.toNat < 0x80) : (byteOf c).toNat = c.toNat := by
  rw [byteOf, UInt8.toNat_ofNat', Nat.mod_eq_of_lt (by omega)]

/-- An ASCII byte is missing in a text as the character is. -/
theorem byteOf_not_mem {c : Char} (hc : c.toNat < 0x80) {cs : List Char} (h : c ∉ cs) :
    byteOf c ∉ bytes cs := by
  intro hm
  have hmem := mem_bytes (by rw [toNat_byteOf hc]; exact hc) hm
  rw [toNat_byteOf hc, Char.ofNat_toNat] at hmem
  exact h hmem

theorem bytes_eq_nil {cs : List Char} : bytes cs = [] ↔ cs = [] := by
  cases cs with
  | nil => simp
  | cons c cs => simp [bytes_cons, utf8EncodeChar_ne_nil c]

/-- The first byte of a text tells its first character apart from ASCII characters. -/
theorem byte_ne_of_head {c d : Char} {cs : List Char} {b : UInt8} {bs : Bytes}
    (h : bytes (c :: cs) = b :: bs) (hd : d.toNat < 0x80) (hne : c ≠ d) : b ≠ byteOf d := by
  rintro rfl
  have hmem : byteOf d ∈ bytes [c] := by
    rw [bytes_cons] at h ⊢
    cases hc : String.utf8EncodeChar c with
    | nil => exact absurd hc (utf8EncodeChar_ne_nil c)
    | cons b' bs' =>
      rw [hc, List.cons_append] at h
      rw [(List.cons.inj h).1]
      exact List.mem_append_left _ (List.mem_cons_self ..)
  exact byteOf_not_mem hd (by simpa using Ne.symm hne) hmem

/-- So does the last byte with the last character. -/
theorem getLast?_bytes_ne {c d : Char} {cs : List Char} (h : cs.getLast? = some c)
    (hd : d.toNat < 0x80) (hne : c ≠ d) : (bytes cs).getLast? ≠ some (byteOf d) := by
  obtain ⟨ds, rfl⟩ := List.getLast?_eq_some_iff.1 h
  intro hlast
  rw [bytes_append, List.getLast?_append] at hlast
  cases hc : (bytes [c]).getLast? with
  | none => exact absurd (bytes_eq_nil.1 (List.getLast?_eq_none_iff.1 hc)) (by simp)
  | some b =>
    rw [hc, Option.some_or] at hlast
    have hmem := List.mem_of_getLast? hc
    rw [Option.some.inj hlast] at hmem
    exact byteOf_not_mem hd (by simpa using Ne.symm hne) hmem

/-- An ASCII byte splits a text at its character. -/
theorem split_at_byte {c : Char} (hc : c.toNat < 0x80) {cs : List Char} {u v : Bytes}
    (h : bytes cs = u ++ byteOf c :: v) :
    ∃ before after, cs = before ++ c :: after ∧ bytes before = u ∧ bytes after = v := by
  induction cs generalizing u with
  | nil => cases u <;> cases h
  | cons d cs ih =>
    rw [bytes_cons] at h
    have hlater {w : Bytes} (hu : u = String.utf8EncodeChar d ++ w)
        (hw : bytes cs = w ++ byteOf c :: v) :
        ∃ before after, d :: cs = before ++ c :: after ∧ bytes before = u ∧ bytes after = v := by
      obtain ⟨before, after, rfl, hbefore, hafter⟩ := ih hw
      exact ⟨d :: before, after, rfl, by rw [bytes_cons, hbefore, hu], hafter⟩
    rcases List.append_eq_append_iff.1 h with ⟨w, hu, hw⟩ | ⟨w, hd, hw⟩
    · exact hlater hu hw
    · cases w with
      | nil =>
        rw [List.append_nil] at hd
        exact hlater (w := []) (by rw [hd, List.append_nil]) hw.symm
      | cons b w =>
        obtain ⟨rfl, hv⟩ := List.cons.inj hw
        -- the byte is in the first character, which then is nothing else
        have hmem : byteOf c ∈ String.utf8EncodeChar d := by
          rw [hd]
          simp
        rcases utf8EncodeChar_cases d with ⟨hascii, he⟩ | ⟨-, -, hhigh⟩
        · rw [he, List.mem_singleton] at hmem
          have htoNat := congrArg UInt8.toNat hmem
          rw [toNat_byteOf hc, UInt8.toNat_ofNat', Nat.mod_eq_of_lt (by omega)] at htoNat
          obtain rfl : c = d := Char.toNat_inj.1 htoNat
          rw [he] at hd
          cases u with
          | nil =>
            obtain rfl : w = [] := (List.cons.inj hd).2.symm
            exact ⟨[], cs, rfl, rfl, hv.symm⟩
          | cons b u => simp at hd
        · have hlow := hhigh _ hmem
          rw [toNat_byteOf hc] at hlow
          omega

theorem head_of_byte {c : Char} (hc : c.toNat < 0x80) {cs : List Char} {v : Bytes}
    (h : bytes cs = byteOf c :: v) : ∃ after, cs = c :: after ∧ bytes after = v := by
  obtain ⟨before, after, rfl, hbefore, hafter⟩ := split_at_byte hc (u := []) h
  rw [bytes_eq_nil.1 hbefore]
  exact ⟨after, rfl, hafter⟩

end SchemaForms.Utf8
