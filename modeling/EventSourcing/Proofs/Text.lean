import EventSourcing.CommitId
import EventSourcing.Text.Percent

/-!
# Text and its bytes

Bytes that were written from text are read back as that text: UTF-8 (`Utf8.decode_encode`),
hexadecimal digits (`Hex.decode_encode`) and with them commit ids. Text without percent signs has no
escapes (`Percent.decode_ofString`). Texts are in the order of their bytes (`Utf8.ofString_lt`): the
first byte of a character is the greater, the more bytes there are, and the others are its digits.
-/

namespace EventSourcing

namespace Utf8

section Bytes

variable {n : Nat}

theorem toNat_ofNat_of_lt (h : n < 256) : (UInt8.ofNat n).toNat = n := by
  rw [UInt8.toNat_ofNat']
  exact Nat.mod_eq_of_lt h

/-- The bytes of a range, in numbers. -/
theorem between_ofNat_iff (h : n < 256) (a b : UInt8) :
    (decide (a ≤ UInt8.ofNat n) && decide (UInt8.ofNat n < b)) = true
      ↔ a.toNat ≤ n ∧ n < b.toNat := by
  simp only [Bool.and_eq_true, decide_eq_true_eq, UInt8.le_iff_toNat_le, UInt8.lt_iff_toNat_lt,
    toNat_ofNat_of_lt h]

theorem ofNat_eq_iff (h : n < 256) (b : UInt8) : UInt8.ofNat n = b ↔ n = b.toNat := by
  rw [← UInt8.toNat_inj, toNat_ofNat_of_lt h]

theorem isTail_ofNat (h : n < 64) : isTail (UInt8.ofNat (n + 128)) = true :=
  (between_ofNat_iff (by omega) _ _).2 ⟨by simp, by simp; omega⟩

theorem tailBits_ofNat (h : n < 64) : tailBits (UInt8.ofNat (n + 128)) = n := by
  rw [tailBits, toNat_ofNat_of_lt (by omega)]
  omega

end Bytes

section Characters

variable {a b c d : UInt8} {bs : Bytes} {cs : List Char} {pos : Nat}

theorem decodeFrom_one (ha : a < 0x80) (h : decodeFrom (pos + 1) bs = .ok cs) :
    decodeFrom pos (a :: bs) = .ok (Char.ofNat a.toNat :: cs) := by
  rw [decodeFrom.eq_def]
  simp only [if_pos ha, h]
  rfl

theorem decodeFrom_two (ha : ¬ a < 0x80) (ha' : (0xC2 ≤ a && a < 0xE0) = true)
    (hb : isTail b = true) (h : decodeFrom (pos + 2) bs = .ok cs) :
    decodeFrom pos (a :: b :: bs)
      = .ok (Char.ofNat (a.toNat % 32 * 64 + tailBits b) :: cs) := by
  rw [decodeFrom.eq_def]
  simp only [if_neg ha, if_pos ha', if_pos hb, h]
  rfl

theorem decodeFrom_three (ha : ¬ a < 0x80) (ha' : ¬ (0xC2 ≤ a && a < 0xE0) = true)
    (ha'' : (0xE0 ≤ a && a < 0xF0) = true) (hb : second3 a b = true) (hc : isTail c = true)
    (h : decodeFrom (pos + 3) bs = .ok cs) :
    decodeFrom pos (a :: b :: c :: bs)
      = .ok (Char.ofNat ((a.toNat % 16 * 64 + tailBits b) * 64 + tailBits c) :: cs) := by
  rw [decodeFrom.eq_def]
  simp only [if_neg ha, if_neg ha', if_pos ha'', if_pos hb, if_pos hc, h]
  rfl

theorem decodeFrom_four (ha : ¬ a < 0x80) (ha' : ¬ (0xC2 ≤ a && a < 0xE0) = true)
    (ha'' : ¬ (0xE0 ≤ a && a < 0xF0) = true) (hahigh : (0xF0 ≤ a && a < 0xF5) = true)
    (hb : second4 a b = true) (hc : isTail c = true) (hd : isTail d = true)
    (h : decodeFrom (pos + 4) bs = .ok cs) :
    decodeFrom pos (a :: b :: c :: d :: bs) = .ok (Char.ofNat
      (((a.toNat % 8 * 64 + tailBits b) * 64 + tailBits c) * 64 + tailBits d) :: cs) := by
  rw [decodeFrom.eq_def]
  simp only [if_neg ha, if_neg ha', if_neg ha'', if_pos hahigh, if_pos hb, if_pos hc, if_pos hd, h]
  rfl

end Characters

/-- The second byte of a character of three bytes is in the range that its first byte asks for. -/
theorem second3_ofNat {n : Nat} (h : n < 0xD800 ∨ 0xDFFF < n) (hlow : 0x7ff < n)
    (hhigh : n ≤ 0xffff) :
    second3 (UInt8.ofNat (n / 4096 % 16 + 224)) (UInt8.ofNat (n / 64 % 64 + 128)) = true := by
  unfold second3
  split
  · rename_i he
    rw [ofNat_eq_iff (by omega)] at he
    simp only [UInt8.reduceToNat] at he
    refine (between_ofNat_iff (by omega) _ _).2 ?_
    simp only [UInt8.reduceToNat]
    omega
  split
  · rename_i he
    rw [ofNat_eq_iff (by omega)] at he
    simp only [UInt8.reduceToNat] at he
    refine (between_ofNat_iff (by omega) _ _).2 ?_
    simp only [UInt8.reduceToNat]
    omega
  · exact isTail_ofNat (by omega)

/-- The second byte of a character of four bytes is in the range that its first byte asks for. -/
theorem second4_ofNat {n : Nat} (hlow : 0xffff < n) (hhigh : n < 0x110000) :
    second4 (UInt8.ofNat (n / 262144 % 8 + 240)) (UInt8.ofNat (n / 4096 % 64 + 128)) = true := by
  unfold second4
  split
  · rename_i he
    rw [ofNat_eq_iff (by omega)] at he
    simp only [UInt8.reduceToNat] at he
    refine (between_ofNat_iff (by omega) _ _).2 ?_
    simp only [UInt8.reduceToNat]
    omega
  split
  · rename_i he
    rw [ofNat_eq_iff (by omega)] at he
    simp only [UInt8.reduceToNat] at he
    refine (between_ofNat_iff (by omega) _ _).2 ?_
    simp only [UInt8.reduceToNat]
    omega
  · exact isTail_ofNat (by omega)

/-- A character is read back from its bytes. -/
theorem decodeFrom_utf8EncodeChar (c : Char) {bs : Bytes} {cs : List Char}
    (h : ∀ pos, decodeFrom pos bs = .ok cs) (pos : Nat) :
    decodeFrom pos (String.utf8EncodeChar c ++ bs) = .ok (c :: cs) := by
  have hvalid : c.val.toNat < 0xD800 ∨ 0xDFFF < c.val.toNat ∧ c.val.toNat < 0x110000 := c.valid
  have hc : Char.ofNat c.val.toNat = c := Char.ofNat_toNat c
  unfold String.utf8EncodeChar
  generalize c.val.toNat = n at hvalid hc ⊢
  have hrange {k : Nat} (hk : k < 256) (a b : UInt8) (hn : ¬ (a.toNat ≤ k ∧ k < b.toNat)) :
      ¬ (decide (a ≤ UInt8.ofNat k) && decide (UInt8.ofNat k < b)) = true := by
    rwa [between_ofNat_iff hk]
  have hlow {k : Nat} (hk : k < 256) : UInt8.ofNat k < 0x80 ↔ k < 128 := by
    rw [UInt8.lt_iff_toNat_lt, toNat_ofNat_of_lt hk]
    rfl
  simp only
  split
  · rw [List.singleton_append, decodeFrom_one ((hlow (by omega)).2 (by omega)) (h _),
      toNat_ofNat_of_lt (by omega), hc]
  split
  · refine (decodeFrom_two (by rw [hlow] <;> omega) ?_ (isTail_ofNat (by omega)) (h _)).trans ?_
    · refine (between_ofNat_iff (by omega) _ _).2 ?_
      simp only [UInt8.reduceToNat]
      omega
    · rw [tailBits_ofNat (by omega), toNat_ofNat_of_lt (by omega), ← hc]
      congr 3
      omega
  split
  · refine (decodeFrom_three (by rw [hlow] <;> omega) (hrange (by omega) _ _ ?_) ?_
      (second3_ofNat ?_ (by omega) (by omega)) (isTail_ofNat (by omega)) (h _)).trans ?_
    · simp only [UInt8.reduceToNat]
      omega
    · refine (between_ofNat_iff (by omega) _ _).2 ?_
      simp only [UInt8.reduceToNat]
      omega
    · omega
    · rw [tailBits_ofNat (by omega), tailBits_ofNat (by omega), toNat_ofNat_of_lt (by omega), ← hc]
      congr 3
      omega
  · refine (decodeFrom_four (by rw [hlow] <;> omega) (hrange (by omega) _ _ ?_)
      (hrange (by omega) _ _ ?_) ?_ (second4_ofNat (by omega) (by omega)) (isTail_ofNat (by omega))
      (isTail_ofNat (by omega)) (h _)).trans ?_
    · simp only [UInt8.reduceToNat]
      omega
    · simp only [UInt8.reduceToNat]
      omega
    · refine (between_ofNat_iff (by omega) _ _).2 ?_
      simp only [UInt8.reduceToNat]
      omega
    · rw [tailBits_ofNat (by omega), tailBits_ofNat (by omega), tailBits_ofNat (by omega),
        toNat_ofNat_of_lt (by omega), ← hc]
      congr 3
      omega

/-- **Text is read back from its bytes.** -/
theorem decode_encode (cs : List Char) : decode (encode cs) = .ok cs := by
  suffices h : ∀ pos, decodeFrom pos (encode cs) = .ok cs from h 0
  induction cs with
  | nil => exact fun _ => rfl
  | cons c cs ih => exact decodeFrom_utf8EncodeChar c ih

section Order

variable {a b : UInt8} {as bs : Bytes} {m n : Nat}

/-- At the first place where they differ the byte of the first sequence is the lower one. -/
inductive Below : Bytes → Bytes → Prop
  | byte {a b : UInt8} {as bs : Bytes} : a < b → Below (a :: as) (b :: bs)
  | next {a : UInt8} {as bs : Bytes} : Below as bs → Below (a :: as) (a :: bs)

theorem Below.append_lt (h : Below as bs) (xs ys : Bytes) : as ++ xs < bs ++ ys := by
  induction h with
  | byte h => exact List.cons_lt_cons_iff.2 (.inl h)
  | next _ ih => exact List.cons_lt_cons_iff.2 (.inr ⟨rfl, ih⟩)

theorem below_cons_of_lt (hm : m < 256) (hn : n < 256) (h : m < n) :
    Below (UInt8.ofNat m :: as) (UInt8.ofNat n :: bs) := by
  refine .byte ?_
  rwa [UInt8.lt_iff_toNat_lt, toNat_ofNat_of_lt hm, toNat_ofNat_of_lt hn]

theorem below_cons_of_le (hm : m < 256) (hn : n < 256) (hle : m ≤ n)
    (h : m = n → Below as bs) : Below (UInt8.ofNat m :: as) (UInt8.ofNat n :: bs) := by
  rcases Nat.lt_or_eq_of_le hle with hlt | rfl
  · exact below_cons_of_lt hm hn hlt
  · exact .next (h rfl)

/-- The bytes of a character are below those of a greater one. -/
theorem below_utf8EncodeChar {c d : Char} (h : c < d) :
    Below (String.utf8EncodeChar c) (String.utf8EncodeChar d) := by
  have hlt : c.val.toNat < d.val.toNat := h
  have hvalid : d.val.toNat < 0xD800 ∨ 0xDFFF < d.val.toNat ∧ d.val.toNat < 0x110000 := d.valid
  have hmax : d.val.toNat < 0x110000 := by omega
  unfold String.utf8EncodeChar
  generalize c.val.toNat = m, d.val.toNat = n at hlt hmax
  simp only
  split
  · repeat' split
    all_goals exact below_cons_of_lt (by omega) (by omega) (by omega)
  rw [if_neg (by omega : ¬ n ≤ 127)]
  split
  · split
    · refine below_cons_of_le (by omega) (by omega) (by omega) fun h1 => ?_
      exact below_cons_of_lt (by omega) (by omega) (by omega)
    · split <;> exact below_cons_of_lt (by omega) (by omega) (by omega)
  rw [if_neg (by omega : ¬ n ≤ 2047)]
  split
  · split
    · refine below_cons_of_le (by omega) (by omega) (by omega) fun h1 => ?_
      refine below_cons_of_le (by omega) (by omega) (by omega) fun h2 => ?_
      exact below_cons_of_lt (by omega) (by omega) (by omega)
    · exact below_cons_of_lt (by omega) (by omega) (by omega)
  rw [if_neg (by omega : ¬ n ≤ 65535)]
  refine below_cons_of_le (by omega) (by omega) (by omega) fun h1 => ?_
  refine below_cons_of_le (by omega) (by omega) (by omega) fun h2 => ?_
  refine below_cons_of_le (by omega) (by omega) (by omega) fun h3 => ?_
  exact below_cons_of_lt (by omega) (by omega) (by omega)

/-- **Text is in the order of its bytes.** -/
theorem ofString_lt {s t : String} (h : s < t) : ofString s < ofString t := by
  have hlt : s.toList < t.toList := h
  rw [ofString, ofString]
  generalize s.toList = cs, t.toList = ds at hlt
  induction cs generalizing ds with
  | nil =>
    cases ds with
    | nil => exact absurd hlt (List.lt_irrefl [])
    | cons d ds =>
      rw [encode_nil, encode_cons]
      cases hd : String.utf8EncodeChar d with
      | nil => exact absurd hd String.utf8EncodeChar_ne_nil
      | cons b bs => exact List.nil_lt_cons ..
  | cons c cs ih =>
    cases ds with
    | nil => exact absurd hlt (List.not_lt_nil _)
    | cons d ds =>
      rw [encode_cons, encode_cons]
      rcases List.cons_lt_cons_iff.1 hlt with hcd | ⟨rfl, hrest⟩
      · exact (below_utf8EncodeChar hcd).append_lt _ _
      · exact List.append_left_lt (ih ds hrest)

end Order
end Utf8

namespace Hex

/-- The value of a digit is read back from its byte. -/
theorem value?_digit (n : Nat) (h : n < 16) :
    String.utf8EncodeChar (digit n) = [UInt8.ofNat (digit n).toNat] ∧
      value? (UInt8.ofNat (digit n).toNat) = some n := by
  revert n
  decide

/-- Bytes are read back from their digits. -/
theorem decodeFrom_encode (bs : Bytes) (pos : Nat) :
    decodeFrom pos (Utf8.encode (encode bs)) = .ok bs := by
  induction bs generalizing pos with
  | nil => rfl
  | cons b bs ih =>
    have hb := b.toNat_lt
    obtain ⟨hx, hxv⟩ := value?_digit (b.toNat / 16) (by omega)
    obtain ⟨hy, hyv⟩ := value?_digit (b.toNat % 16) (by omega)
    have hsum : UInt8.ofNat (16 * (b.toNat / 16) + b.toNat % 16) = b := by
      rw [Nat.div_add_mod]
      exact UInt8.ofNat_toNat
    rw [encode, Utf8.encode_cons, Utf8.encode_cons, hx, hy]
    simp only [List.cons_append, List.nil_append, decodeFrom, hxv, hyv, ih, hsum]
    rfl

/-- The digits of bytes take one byte each. -/
theorem length_encode_encode (bs : Bytes) :
    (Utf8.encode (encode bs)).length = 2 * bs.length := by
  induction bs with
  | nil => rfl
  | cons b bs ih =>
    have hb := b.toNat_lt
    rw [encode, Utf8.encode_cons, Utf8.encode_cons, (value?_digit _ (by omega)).1,
      (value?_digit _ (by omega)).1]
    simp only [List.cons_append, List.nil_append, List.length_cons, ih]
    omega

/-- **Bytes are read back from their digits.** -/
theorem decode_encode (bs : Bytes) : decode (Utf8.encode (encode bs)) = .ok bs := by
  rw [decode, length_encode_encode, if_neg (by omega), decodeFrom_encode]

end Hex

namespace Percent

/-- Bytes without the one of a percent sign stand for themselves. -/
theorem decode_eq_self {bs : Bytes} (h : 37 ∉ bs) : decode bs = bs := by
  fun_induction decode bs with
  | case1 | case2 | case3 => rfl
  | case4 | case5 => exact absurd (List.mem_cons_self ..) h
  | case6 a b c r _ ih => rw [ih fun hmem => h (List.mem_cons_of_mem _ hmem)]

/-- Only a percent sign has its byte. -/
theorem eq_percent_of_mem {c : Char} (h : 37 ∈ String.utf8EncodeChar c) : c = '%' := by
  have hc : Char.ofNat c.val.toNat = c := Char.ofNat_toNat c
  unfold String.utf8EncodeChar at h
  generalize c.val.toNat = n at hc h
  have hne {k : Nat} (hlow : 128 ≤ k) (hk : k < 256) : (37 : UInt8) ≠ UInt8.ofNat k := fun he => by
    have hlt : (37 : UInt8).toNat < 128 := by decide
    rw [(Utf8.ofNat_eq_iff hk 37).1 he.symm] at hlow
    omega
  simp only at h
  split at h
  · rw [List.mem_singleton] at h
    rw [← hc, (Utf8.ofNat_eq_iff (by omega) 37).1 h.symm]
    rfl
  · -- the bytes of all other characters have their high bit set
    exfalso
    split at h
    · simp only [List.mem_cons, List.not_mem_nil, or_false] at h
      rcases h with h | h <;> exact hne (by omega) (by omega) h
    split at h <;> simp only [List.mem_cons, List.not_mem_nil, or_false] at h
    · rcases h with h | h | h <;> exact hne (by omega) (by omega) h
    · rcases h with h | h | h | h <;> exact hne (by omega) (by omega) h

/-- **Text without percent signs stands for itself.** -/
theorem decode_ofString {s : String} (h : '%' ∉ s.toList) :
    decode (Utf8.ofString s) = Utf8.ofString s := by
  refine decode_eq_self fun hmem => h ?_
  obtain ⟨c, hc, hbyte⟩ := List.mem_flatMap.1 hmem
  rwa [← eq_percent_of_mem hbyte]

end Percent

namespace CommitId

/-- Different ids have different digits. -/
theorem digits_inj {i j : CommitId} : i.digits = j.digits ↔ i = j := by
  refine ⟨fun h => ?_, fun h => by rw [h]⟩
  have hi := Hex.decode_encode i.bytes
  rw [String.ofList_injective h, Hex.decode_encode] at hi
  exact ext (Except.ok.inj hi).symm

end CommitId
end EventSourcing
