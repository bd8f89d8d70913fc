import EventSourcing.Proofs.Text
import EventSourcing.Wire.Protobuf
import Mathlib.Data.List.Sort

/-!
# Fields are read back from their bytes

What one field writes takes a message to the message with that field, whatever fields come after it
(`Protobuf.Takes`). Fields that are left out take a message to itself, so the rule is the same for
them, and a message is read back by putting its fields one after the other (`Takes.append`,
`Takes.merge`).

Lengths are written as numbers of 64 bits, so this holds for bytes that are fewer than `2 ^ 64`.

The entries of a map may come in any order: reading puts them in the order of their keys
(`foldl_setEntry`).
-/

namespace EventSourcing
namespace Protobuf

section Numbers

variable {n number form : Nat} {bs : Bytes}

/-- The last group of a number is read back; as the last of all it has room for one bit. -/
theorem readVarintWithin_last {k : Nat} (hlt : n < 128) (hlast : k = 0 → n < 2) (r : Bytes) :
    readVarintWithin (k + 1) (UInt8.ofNat n :: r) = some (n, r) := by
  have hn : (UInt8.ofNat n).toNat = n := Utf8.toNat_ofNat_of_lt (by omega)
  have hlow : UInt8.ofNat n < 128 := by
    rw [UInt8.lt_iff_toNat_lt, hn]
    exact hlt
  have hfits : ¬ (k = 0 ∧ 2 ≤ UInt8.ofNat n) := by
    rintro ⟨hk, hle⟩
    rw [UInt8.le_iff_toNat_le, hn] at hle
    exact absurd (hlast hk) (Nat.not_lt.2 hle)
  rw [readVarintWithin, if_pos hlow, if_neg hfits, hn]

/-- A number is read back from its groups of seven bits. -/
theorem readVarintWithin_varintWithin {k : Nat} (h : n < 2 * Nat.pow 128 k) (r : Bytes) :
    readVarintWithin (k + 1) (varintWithin (k + 1) n ++ r) = some (n, r) := by
  induction k generalizing n with
  | zero =>
    have htwo : n < 2 := h
    rw [varintWithin, if_pos (by omega), List.singleton_append,
      readVarintWithin_last (by omega) fun _ => htwo]
  | succ k ih =>
    have hnext : n < 2 * (Nat.pow 128 k * 128) := h
    rw [varintWithin]
    split
    · rename_i hlt
      exact readVarintWithin_last hlt (fun hk => absurd hk (Nat.succ_ne_zero k)) r
    · rename_i hge
      have hn : (UInt8.ofNat (n % 128 + 128)).toNat = n % 128 + 128 :=
        Utf8.toNat_ofNat_of_lt (by omega)
      have hhigh : ¬ UInt8.ofNat (n % 128 + 128) < 128 := by
        rw [UInt8.lt_iff_toNat_lt, hn]
        exact Nat.not_lt.2 (Nat.le_add_left ..)
      rw [List.cons_append, readVarintWithin, if_neg hhigh, ih (by omega)]
      simp only [hn]
      congr 2
      omega

/-- **A number of 64 bits is read back.** -/
theorem readVarint_varint (h : n < 18446744073709551616) (r : Bytes) :
    readVarint (varint n ++ r) = some (n, r) :=
  readVarintWithin_varintWithin (k := 9) h r

theorem varint_ne_nil (n : Nat) : varint n ≠ [] := by
  rw [varint, varintWithin]
  split <;> exact List.cons_ne_nil _ _

theorem length_varintWithin_le (k n : Nat) : (varintWithin k n).length ≤ k := by
  induction k generalizing n with
  | zero => exact Nat.le_refl 0
  | succ k ih =>
    rw [varintWithin]
    split
    · exact Nat.succ_le_succ (Nat.zero_le k)
    · exact Nat.succ_le_succ (ih _)

theorem length_varint_le (n : Nat) : (varint n).length ≤ 10 := length_varintWithin_le 10 n

/-- The key of a field is read back. -/
theorem readKey_key (hi : 0 < number ∧ number < 536870912) (hform : form < 8) (r : Bytes) :
    readKey (key number form ++ r) = some (number, form, r) := by
  rw [readKey, key, readVarint_varint (by omega)]
  have hnumber : (8 * number + form) / 8 = number := by omega
  have hrest : (8 * number + form) % 8 = form := by omega
  simp only [hnumber, hrest]
  rw [if_pos ⟨by omega, by omega⟩]

/-- Bytes are read back from behind their length. -/
theorem readDelimited_delimited (h : bs.length < 18446744073709551616) (r : Bytes) :
    readDelimited (delimited bs ++ r) = some (bs, r) := by
  rw [readDelimited, delimited, List.append_assoc, readVarint_varint h]
  simp only
  rw [if_pos (by rw [List.length_append]; exact Nat.le_add_right ..), List.take_left,
    List.drop_left]

/-- An integer of 64 bits with a sign is read back from the number it is written as. -/
theorem toInteger_ofInteger {n : Int}
    (h : -9223372036854775808 ≤ n ∧ n < 9223372036854775808) : toInteger (ofInteger n) = n := by
  rw [toInteger, ofInteger]
  split <;> omega

theorem ofInteger_lt (n : Int) : ofInteger n < 18446744073709551616 := by
  rw [ofInteger]
  omega

end Numbers

section Values

theorem text?_ofString (s : String) : (Value.bytes (Utf8.ofString s)).text? = some s := by
  show (Utf8.decode (Utf8.ofString s)).toOption.map String.ofList = some s
  rw [Utf8.ofString, Utf8.decode_encode]
  show some (String.ofList s.toList) = some s
  rw [String.ofList_toList]

theorem word?_number {n : Nat} (h : n < 4294967296) : (Value.number n).word? = some n := by
  rw [Value.word?, Nat.mod_eq_of_lt h]

theorem integer?_ofInteger {n : Int}
    (h : -9223372036854775808 ≤ n ∧ n < 9223372036854775808) :
    (Value.number (ofInteger n)).integer? = some n := by
  rw [Value.integer?, toInteger_ofInteger h]

end Values

section Fields

variable {depth number : Nat} {maps : List Nat} {bs r : Bytes}

/-- A field of a number is read back. -/
theorem readField_number {n : Nat} (hi : 0 < number ∧ number < 536870912)
    (hmaps : number ∉ maps) (hn : n < 18446744073709551616) (r : Bytes) :
    readField depth maps (key number 0 ++ varint n ++ r) = some (⟨number, .number n⟩, r) := by
  rw [readField, List.append_assoc, readKey_key hi (by decide)]
  simp only [List.contains_eq_mem, hmaps, decide_false, Bool.false_and, Bool.false_eq_true,
    if_false, readValue, readVarint_varint hn, Option.map_some]

/-- A field of bytes is read back, whether it is a map or not. -/
theorem readField_message (hi : 0 < number ∧ number < 536870912)
    (hbs : bs.length < 18446744073709551616) (r : Bytes) :
    readField depth maps (message number bs ++ r) = some (⟨number, .bytes bs⟩, r) := by
  rw [readField, message, List.append_assoc, readKey_key hi (by decide)]
  simp only [readValue, readDelimited_delimited hbs, Option.map_some, ite_self]

/-- More steps than are needed change nothing. -/
theorem readFieldsWithin_mono {steps steps' : Nat} {fs : List Field}
    (h : readFieldsWithin depth maps steps bs = some fs) (hle : steps ≤ steps') :
    readFieldsWithin depth maps steps' bs = some fs := by
  induction steps generalizing steps' bs fs with
  | zero =>
    cases bs with
    | nil => cases steps' <;> exact h
    | cons b bs => cases h
  | succ steps ih =>
    obtain ⟨n, rfl⟩ : ∃ n, steps' = n + 1 := ⟨steps' - 1, by omega⟩
    cases bs with
    | nil => exact h
    | cons b bs =>
      rw [readFieldsWithin] at h ⊢
      · split at h
        · cases h
        · rename_i f r hf
          obtain ⟨gs, hgs, rfl⟩ := Option.map_eq_some_iff.1 h
          rw [ih hgs (by omega)]
          rfl
      · exact List.cons_ne_nil _ _
      · exact List.cons_ne_nil _ _

/-- Bytes that begin with a field hold that field and those of the rest. -/
theorem readFields_append {f : Field} {fs : List Field} (hne : bs ≠ [])
    (hf : readField depth maps (bs ++ r) = some (f, r)) (h : readFields depth maps r = some fs) :
    readFields depth maps (bs ++ r) = some (f :: fs) := by
  obtain ⟨b, bs, rfl⟩ := List.exists_cons_of_ne_nil hne
  have hmore : readFieldsWithin depth maps (bs ++ r).length r = some fs :=
    readFieldsWithin_mono h (by rw [List.length_append]; omega)
  rw [readFields, List.cons_append, List.length_cons, readFieldsWithin]
  · rw [← List.cons_append, hf]
    simp only
    rw [hmore]
    rfl
  · exact List.cons_ne_nil _ _

end Fields

section Lengths

/-- A number of 64 bits after a key. -/
theorem length_integer_le (number : Nat) (n : Int) : (integer number n).length ≤ 20 := by
  rw [integer]
  split
  · exact Nat.zero_le _
  · have hkey := length_varint_le (8 * number)
    have hvalue := length_varint_le (ofInteger n)
    rw [someInteger, List.length_append, key, Nat.add_zero]
    omega

theorem length_word_le (number n : Nat) : (word number n).length ≤ 20 := by
  rw [word]
  split
  · exact Nat.zero_le _
  · have hkey := length_varint_le (8 * number)
    have hvalue := length_varint_le n
    rw [List.length_append, key, Nat.add_zero]
    omega

/-- A message is no longer than its bytes, a key and their length. -/
theorem length_message_le (number : Nat) (bs : Bytes) :
    (message number bs).length ≤ bs.length + 20 := by
  have hkey := length_varint_le (8 * number + 2)
  have hlength := length_varint_le bs.length
  rw [message, delimited, List.length_append, List.length_append, key]
  omega

end Lengths

section Messages

/-- What is taken into a part of a message is taken into the message. -/
theorem merge_map {α β : Type} {depth : Nat} {maps : List Nat} {take : α → Field → Option α}
    {take' : β → Field → Option β} {g : α → β} (h : ∀ m f, take' (g m) f = (take m f).map g)
    (m : α) (bs : Bytes) :
    merge depth maps take' (g m) bs = (merge depth maps take m bs).map g := by
  have habsorb (fs : List Field) (m : α) : absorb take' (g m) fs = (absorb take m fs).map g := by
    induction fs generalizing m with
    | nil => rfl
    | cons f fs ih =>
      rw [absorb, absorb, h]
      cases take m f with
      | none => rfl
      | some m => exact ih m
  rw [merge, merge]
  cases readFields depth maps bs with
  | none => rfl
  | some fs => exact habsorb fs m

variable {α : Type} {depth i : Nat} {maps : List Nat} {take : α → Field → Option α}
  {m m' m'' : α} {bs bs' : Bytes}

/-- Bytes that take a message to another one, whatever comes after them. -/
def Takes (depth : Nat) (maps : List Nat) (take : α → Field → Option α) (bs : Bytes) (m m' : α) :
    Prop :=
  bs.length < 18446744073709551616 →
    ∀ r x, merge depth maps take m' r = some x → merge depth maps take m (bs ++ r) = some x

namespace Takes

theorem nil : Takes depth maps take [] m m := fun _ _ _ h => h

theorem append (h : Takes depth maps take bs m m') (h' : Takes depth maps take bs' m' m'') :
    Takes depth maps take (bs ++ bs') m m'' := by
  intro hlt r x hx
  rw [List.length_append] at hlt
  rw [List.append_assoc]
  exact h (by omega) _ x (h' (by omega) r x hx)

/-- Bytes that take a message to another one are read as that one. -/
theorem merge (h : Takes depth maps take bs m m') (hbs : bs.length < 18446744073709551616) :
    merge depth maps take m bs = some m' := by
  have hread := h hbs [] m' rfl
  rwa [List.append_nil] at hread

theorem field {f : Field} (hne : bs ≠ [])
    (hf : bs.length < 18446744073709551616 → ∀ r, readField depth maps (bs ++ r) = some (f, r))
    (htake : bs.length < 18446744073709551616 → take m f = some m') :
    Takes depth maps take bs m m' := by
  intro hlt r x hx
  obtain ⟨fs, hfs, hx⟩ := Option.bind_eq_some_iff.1 hx
  rw [Protobuf.merge, readFields_append hne (hf hlt r) hfs, Option.bind_some, absorb, htake hlt]
  exact hx

/-- A field of bytes. -/
theorem message (hi : 0 < i ∧ i < 536870912)
    (htake : bs.length < 18446744073709551616 → take m ⟨i, .bytes bs⟩ = some m') :
    Takes depth maps take (message i bs) m m' := by
  have hlength : bs.length ≤ (Protobuf.message i bs).length := by
    rw [Protobuf.message, delimited, List.length_append, List.length_append]
    omega
  refine field ?_ (fun h => readField_message hi (by omega)) fun h => htake (by omega)
  exact List.append_ne_nil_of_left_ne_nil (varint_ne_nil _) _

/-- A field of a number, as it is written unless it is left out. -/
theorem number {n : Nat} (hi : 0 < i ∧ i < 536870912) (hmaps : i ∉ maps)
    (hn : n < 18446744073709551616) (htake : take m ⟨i, .number n⟩ = some m') :
    Takes depth maps take (key i 0 ++ varint n) m m' :=
  field (List.append_ne_nil_of_left_ne_nil (varint_ne_nil _) _)
    (fun _ => readField_number hi hmaps hn) fun _ => htake

/-- A field of a text, as it is written unless it is left out; `put` gives the message with a
text. -/
theorem someText (put : String → α) {s : String} (hi : 0 < i ∧ i < 536870912)
    (htake : ∀ v, take m ⟨i, v⟩ = v.text?.map put) (hm' : put s = m' := by rfl) :
    Takes depth maps take (someText i s) m m' := by
  refine message hi fun _ => ?_
  rw [htake, text?_ofString, Option.map_some, hm']

/-- A field of a text, left out if it is empty. -/
theorem text (put : String → α) {s : String} (hi : 0 < i ∧ i < 536870912)
    (htake : ∀ v, take m ⟨i, v⟩ = v.text?.map put) (hm : put "" = m := by rfl)
    (hm' : put s = m' := by rfl) : Takes depth maps take (text i s) m m' := by
  rw [Protobuf.text]
  split
  · rename_i h
    rw [← hm, ← hm', String.isEmpty_iff.1 h]
    exact nil
  · exact someText put hi htake hm'

/-- The two texts that most messages begin with. -/
theorem texts (put : String → String → α) {s t : String}
    (hfirst : ∀ v, take (put "" "") ⟨1, v⟩ = v.text?.map (put · ""))
    (hsecond : ∀ v, take (put s "") ⟨2, v⟩ = v.text?.map (put s ·))
    (hm : put "" "" = m := by rfl) (hm' : put s t = m' := by rfl) :
    Takes depth maps take (Protobuf.text 1 s ++ Protobuf.text 2 t) m m' :=
  (text (put · "") (by decide) (hm ▸ hfirst) hm).append (text (put s ·) (by decide) hsecond rfl hm')

/-- A field of a word, left out if it is zero. -/
theorem word (put : Nat → α) {n : Nat} (hi : 0 < i ∧ i < 536870912) (hmaps : i ∉ maps)
    (hn : n < 4294967296) (htake : ∀ v, take m ⟨i, v⟩ = v.word?.map put)
    (hm : put 0 = m := by rfl) (hm' : put n = m' := by rfl) :
    Takes depth maps take (word i n) m m' := by
  rw [Protobuf.word]
  split
  · rename_i h
    rw [← hm, ← hm', h]
    exact nil
  · refine Takes.number hi hmaps (by omega) ?_
    rw [htake, word?_number hn, Option.map_some, hm']

/-- A field of an integer, as it is written unless it is left out. -/
theorem someInteger (put : Int → α) {n : Int} (hi : 0 < i ∧ i < 536870912) (hmaps : i ∉ maps)
    (hn : -9223372036854775808 ≤ n ∧ n < 9223372036854775808)
    (htake : ∀ v, take m ⟨i, v⟩ = v.integer?.map put) (hm' : put n = m' := by rfl) :
    Takes depth maps take (someInteger i n) m m' := by
  refine Takes.number hi hmaps (ofInteger_lt n) ?_
  rw [htake, integer?_ofInteger hn, Option.map_some, hm']

/-- A field of an integer, left out if it is zero. -/
theorem integer (put : Int → α) {n : Int} (hi : 0 < i ∧ i < 536870912) (hmaps : i ∉ maps)
    (hn : -9223372036854775808 ≤ n ∧ n < 9223372036854775808)
    (htake : ∀ v, take m ⟨i, v⟩ = v.integer?.map put) (hm : put 0 = m := by rfl)
    (hm' : put n = m' := by rfl) : Takes depth maps take (integer i n) m m' := by
  rw [Protobuf.integer]
  split
  · rename_i h
    rw [← hm, ← hm', h]
    exact nil
  · exact someInteger put hi hmaps hn htake hm'

end Takes

end Messages

section Maps

/-- Whether the keys of a map ascend. -/
def Ascending (m : List (String × String)) : Prop := m.Pairwise fun e f => e.1 < f.1

variable {m es : List (String × String)} {key value : String}

/-- Setting a new key adds an entry. -/
theorem setEntry_perm (h : ∀ e ∈ m, e.1 ≠ key) :
    (setEntry key value m).Perm ((key, value) :: m) := by
  induction m with
  | nil => exact List.Perm.refl _
  | cons e m ih =>
    obtain ⟨k, v⟩ := e
    obtain ⟨hk, hm⟩ := List.forall_mem_cons.1 h
    rw [setEntry]
    split
    · exact List.Perm.refl _
    · rw [if_neg (Ne.symm hk)]
      exact ((ih hm).cons _).trans (List.Perm.swap ..)

/-- Setting a new key keeps the keys in order. -/
theorem ascending_setEntry (hm : Ascending m) (h : ∀ e ∈ m, e.1 ≠ key) :
    Ascending (setEntry key value m) := by
  induction m with
  | nil => exact List.pairwise_singleton _ _
  | cons e m ih =>
    obtain ⟨k, v⟩ := e
    obtain ⟨hk, hnew⟩ := List.forall_mem_cons.1 h
    obtain ⟨hlt, hascending⟩ := List.pairwise_cons.1 hm
    rw [setEntry]
    split
    · rename_i hbefore
      refine List.pairwise_cons.2 ⟨List.forall_mem_cons.2 ⟨hbefore, fun f hf => ?_⟩, hm⟩
      exact String.lt_trans hbefore (hlt f hf)
    · rename_i hafter
      rw [if_neg (Ne.symm hk)]
      refine List.pairwise_cons.2 ⟨fun f hf => ?_, ih hascending hnew⟩
      rcases List.mem_cons.1 ((setEntry_perm hnew).mem_iff.1 hf) with rfl | hf
      · exact Std.lt_of_le_of_ne (String.not_lt.1 hafter) hk
      · exact hlt f hf

/-- Entries of different keys that are set one after the other are all there, in order. -/
theorem foldl_setEntry_perm (hm : Ascending m) (hkeys : ((es ++ m).map (·.1)).Nodup) :
    Ascending (es.foldl (fun m e => setEntry e.1 e.2 m) m) ∧
      (es.foldl (fun m e => setEntry e.1 e.2 m) m).Perm (es ++ m) := by
  induction es generalizing m with
  | nil => exact ⟨hm, List.Perm.refl m⟩
  | cons e es ih =>
    obtain ⟨hnew, -⟩ := List.nodup_cons.1 hkeys
    have hfresh : ∀ f ∈ m, f.1 ≠ e.1 := fun f hf he =>
      hnew (List.mem_map.2 ⟨f, List.mem_append_right es hf, he⟩)
    have hperm : (es ++ setEntry e.1 e.2 m).Perm (e :: es ++ m) :=
      ((setEntry_perm hfresh).append_left es).trans List.perm_middle
    obtain ⟨hascending, hall⟩ :=
      ih (ascending_setEntry hm hfresh) ((hperm.map (·.1)).nodup_iff.2 hkeys)
    exact ⟨hascending, hall.trans hperm⟩

theorem Ascending.nodup_keys (h : Ascending m) : (m.map (·.1)).Nodup :=
  List.pairwise_map.2 <| h.imp fun hlt he => by
    rw [he] at hlt
    exact String.lt_irrefl _ hlt

/-- **A map is read back from its entries in any order.** -/
theorem foldl_setEntry (hm : Ascending m) (h : es.Perm m) :
    es.foldl (fun m e => setEntry e.1 e.2 m) [] = m := by
  have hkeys : (es.map (·.1)).Nodup := (h.map (·.1)).nodup_iff.2 hm.nodup_keys
  obtain ⟨hascending, hperm⟩ :=
    foldl_setEntry_perm List.Pairwise.nil (by rwa [List.append_nil])
  rw [List.append_nil] at hperm
  exact (hperm.trans h).eq_of_pairwise
    (fun a b _ _ hab hba => absurd (String.lt_trans hab hba) (String.lt_irrefl _)) hascending hm

/-- The entry of a map is taken into the map. -/
theorem takeEntry_bytes {depth : Nat} (m : List (String × String)) (key value : String)
    (h : (text 1 key ++ text 2 value).length < 18446744073709551616) :
    takeEntry depth m (.bytes (text 1 key ++ text 2 value)) = some (setEntry key value m) := by
  have hentry : Takes (depth - 1) [] takeEntryField (text 1 key ++ text 2 value) ("", "")
      (key, value) := Takes.texts Prod.mk (fun _ => rfl) fun _ => rfl
  show (merge (depth - 1) [] takeEntryField ("", "") (text 1 key ++ text 2 value)).map
    (fun e => setEntry e.1 e.2 m) = _
  rw [hentry.merge h]
  rfl

/-- The entries of a map in any order; `put` gives the message with a map. -/
theorem Takes.entries {α : Type} {depth depth' i : Nat} {maps : List Nat}
    {take : α → Field → Option α} {blank full : α} (put : List (String × String) → α)
    (hi : 0 < i ∧ i < 536870912) (hm : Ascending m) (h : es.Perm m)
    (htake : ∀ m v, take (put m) ⟨i, v⟩ = (takeEntry depth' m v).map put)
    (hblank : put [] = blank := by rfl) (hfull : put m = full := by rfl) :
    Takes depth maps take (entries i es) blank full := by
  have hstep (es m : List (String × String)) : Takes depth maps take (Protobuf.entries i es)
      (put m) (put (es.foldl (fun m e => setEntry e.1 e.2 m) m)) := by
    induction es generalizing m with
    | nil => exact nil
    | cons e es ih =>
      rw [Protobuf.entries, List.flatMap_cons, List.foldl_cons]
      refine Takes.append (message hi fun hlength => ?_) (ih (setEntry e.1 e.2 m))
      rw [htake, takeEntry_bytes m e.1 e.2 hlength]
      rfl
  rw [← hfull, ← hblank, ← foldl_setEntry hm h]
  exact hstep es []

end Maps
end Protobuf
end EventSourcing
