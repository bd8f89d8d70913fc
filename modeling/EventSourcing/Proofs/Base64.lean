import EventSourcing.Proofs.Text
import EventSourcing.Text.Base64

/-!
# Bytes are read back from base64 text

`Base64.decode_encode`. The text is taken apart the way the reader takes it. Whole groups of three
bytes are written as the symbols of numbers, none of which is padding (`Base64.encode_whole`); the
last one, two or three bytes as at least two more symbols and as much padding as makes four
(`Base64.encode_last`). Both parts are read at any position, since the position only occurs in
refusals.

The text is ASCII, so as a string it has the same bytes (`Base64.ofString_text`).
-/

namespace EventSourcing
namespace Base64

variable {xs ys : Bytes} {ns : List Nat} {pos : Nat}

section Symbols

/-- The symbol of a number is in the alphabet, is no padding and is ASCII. -/
theorem value?_symbol (n : Nat) (h : n < 64) :
    value? (symbol n) = some n ∧ symbol n ≠ pad ∧ symbol n < 128 := by
  revert n
  decide

/-- Numbers are read back from their symbols, wherever these stand. -/
theorem values_symbols (h : ∀ n ∈ ns, n < 64) (pos : Nat) :
    values pos (ns.map symbol) = .ok ns := by
  induction ns generalizing pos with
  | nil => rfl
  | cons n ns ih =>
    obtain ⟨hn, hns⟩ := List.forall_mem_cons.1 h
    rw [List.map_cons, values, (value?_symbol n hn).1]
    simp only [ih hns]
    rfl

/-- Numbers are read back from their symbols before some padding. -/
theorem lastGroup_symbols (h : ∀ n ∈ ns, n < 64) (htwo : 2 ≤ ns.length) (k pos : Nat) :
    lastGroup pos (ns.map symbol ++ List.replicate k pad) = .ok (ns, k) := by
  have hsymbols : ∀ b ∈ ns.map symbol, b ≠ pad := by
    intro b hb
    obtain ⟨n, hn, rfl⟩ := List.mem_map.1 hb
    exact (value?_symbol n (h n hn)).2.1
  have htake : (ns.map symbol ++ List.replicate k pad).takeWhile (· ≠ pad) = ns.map symbol := by
    rw [List.takeWhile_append_of_pos (by simpa using hsymbols)]
    cases k with
    | zero => exact List.append_nil _
    | succ k => rw [List.replicate_succ, List.takeWhile_cons_of_neg (by simp), List.append_nil]
  have hdrop : (ns.map symbol ++ List.replicate k pad).drop ns.length = List.replicate k pad :=
    List.drop_left' (List.length_map symbol)
  have hpad : (List.replicate k pad).takeWhile (· = pad) = List.replicate k pad :=
    List.takeWhile_replicate.trans (if_pos (by simp))
  have hmore : ¬ (ns.length < ns.length + k ∧
      (ns.length < 2 ∨ ns.length + k < ns.length + k)) := by omega
  rw [lastGroup]
  simp only [htake, List.length_map, hdrop, hpad, values_symbols h, List.length_append,
    List.length_replicate, if_neg hmore]

end Symbols

section Groups

/-- Induction on bytes that are whole groups of three. -/
@[elab_as_elim]
theorem threes {motive : Bytes → Prop} {xs : Bytes} (h : xs.length % 3 = 0) (nil : motive [])
    (three : ∀ a b c xs, motive xs → motive (a :: b :: c :: xs)) : motive xs := by
  match xs with
  | [] => exact nil
  | [_] | [_, _] => exact nomatch h
  | a :: b :: c :: xs =>
    have hxs : xs.length % 3 = 0 := by
      simp only [List.length_cons] at h
      omega
    exact three a b c xs (threes hxs nil three)

theorem encode_append (ys : Bytes) (h : xs.length % 3 = 0) :
    encode (xs ++ ys) = encode xs ++ encode ys := by
  refine threes h rfl fun a b c xs ih => ?_
  show encode (a :: b :: c :: (xs ++ ys)) = _
  rw [encode, encode, ih]
  rfl

/-- The numbers that three bytes are written as give the bytes again. -/
theorem groups_three (a b c : UInt8) (ns : List Nat) :
    groups (a.toNat / 4 :: (a.toNat % 4 * 16 + b.toNat / 16) :: (b.toNat % 16 * 4 + c.toNat / 64)
      :: c.toNat % 64 :: ns) = a :: b :: c :: groups ns := by
  have ha := a.toNat_lt
  have hb := b.toNat_lt
  have hc := c.toNat_lt
  have hfirst : a.toNat / 4 * 4 + (a.toNat % 4 * 16 + b.toNat / 16) / 16 = a.toNat := by omega
  have hsecond : (a.toNat % 4 * 16 + b.toNat / 16) % 16 * 16
      + (b.toNat % 16 * 4 + c.toNat / 64) / 4 = b.toNat := by omega
  have hthird : (b.toNat % 16 * 4 + c.toNat / 64) % 4 * 64 + c.toNat % 64 = c.toNat := by omega
  rw [groups, hfirst, hsecond, hthird, UInt8.ofNat_toNat, UInt8.ofNat_toNat, UInt8.ofNat_toNat]

/-- Whole groups are written as the symbols of numbers that give them again. -/
theorem encode_whole (h : xs.length % 3 = 0) : ∃ ns, encode xs = ns.map symbol ∧
    (∀ n ∈ ns, n < 64) ∧ ns.length % 4 = 0 ∧ groups ns = xs := by
  refine threes h ⟨[], rfl, fun n hn => absurd hn List.not_mem_nil, rfl, rfl⟩ fun a b c xs ih => ?_
  obtain ⟨ns, hns, hlt, hlength, hgroups⟩ := ih
  have ha := a.toNat_lt
  have hb := b.toNat_lt
  have hc := c.toNat_lt
  refine ⟨_, ?_, ?_, ?_, (groups_three a b c ns).trans (by rw [hgroups])⟩
  · rw [encode, hns]
    rfl
  · simp only [List.forall_mem_cons]
    exact ⟨by omega, by omega, by omega, by omega, hlt⟩
  · simp only [List.length_cons]
    omega

/-- One, two or three bytes are written as the symbols of numbers that give them again, and padding
that makes four symbols of them. -/
theorem encode_last (hpos : 0 < ys.length) (hle : ys.length ≤ 3) : ∃ ns k,
    encode ys = ns.map symbol ++ List.replicate k pad ∧ (∀ n ∈ ns, n < 64) ∧ 2 ≤ ns.length ∧
      ns.length + k = 4 ∧ ∀ pos b, finish pos b ns k = .ok ys := by
  match ys with
  | [] => exact absurd hpos (by decide)
  | [a] =>
    have ha := a.toNat_lt
    refine ⟨[a.toNat / 4, a.toNat % 4 * 16], 2, rfl, ?_, Nat.le_refl 2, rfl, fun _ _ => ?_⟩
    · exact List.forall_mem_cons.2 ⟨by omega, List.forall_mem_singleton.2 (by omega)⟩
    · have hfirst : a.toNat / 4 * 4 + a.toNat % 4 * 16 / 16 = a.toNat := by omega
      rw [finish, if_pos (by omega), hfirst, UInt8.ofNat_toNat]
  | [a, b] =>
    have ha := a.toNat_lt
    have hb := b.toNat_lt
    refine ⟨[a.toNat / 4, a.toNat % 4 * 16 + b.toNat / 16, b.toNat % 16 * 4], 1, rfl, ?_, by simp,
      rfl, fun _ _ => ?_⟩
    · exact List.forall_mem_cons.2 ⟨by omega, List.forall_mem_cons.2 ⟨by omega,
        List.forall_mem_singleton.2 (by omega)⟩⟩
    · have hfirst : a.toNat / 4 * 4 + (a.toNat % 4 * 16 + b.toNat / 16) / 16 = a.toNat := by omega
      have hsecond : (a.toNat % 4 * 16 + b.toNat / 16) % 16 * 16 + b.toNat % 16 * 4 / 4
          = b.toNat := by omega
      rw [finish, if_pos (by omega), hfirst, hsecond, UInt8.ofNat_toNat, UInt8.ofNat_toNat]
  | [a, b, c] =>
    have ha := a.toNat_lt
    have hb := b.toNat_lt
    have hc := c.toNat_lt
    refine ⟨[a.toNat / 4, a.toNat % 4 * 16 + b.toNat / 16, b.toNat % 16 * 4 + c.toNat / 64,
      c.toNat % 64], 0, rfl, ?_, by simp, rfl, fun _ _ => ?_⟩
    · exact List.forall_mem_cons.2 ⟨by omega, List.forall_mem_cons.2 ⟨by omega,
        List.forall_mem_cons.2 ⟨by omega, List.forall_mem_singleton.2 (by omega)⟩⟩⟩
    · rw [finish, groups_three]
      rfl
  | _ :: _ :: _ :: _ :: _ =>
    simp only [List.length_cons] at hle
    omega

/-- Bytes that are not empty are whole groups of three and one, two or three more. -/
theorem exists_groups (bs : Bytes) (h : bs ≠ []) :
    ∃ xs ys, bs = xs ++ ys ∧ xs.length % 3 = 0 ∧ 0 < ys.length ∧ ys.length ≤ 3 := by
  have hpos := List.length_pos_iff.2 h
  refine ⟨bs.take ((bs.length - 1) / 3 * 3), bs.drop ((bs.length - 1) / 3 * 3),
    (List.take_append_drop ..).symm, ?_, ?_, ?_⟩
  · rw [List.length_take]
    omega
  · rw [List.length_drop]
    omega
  · rw [List.length_drop]
    omega

end Groups

/-- **Bytes are read back from their base64 text.** -/
theorem decode_encode (bs : Bytes) : decode (encode bs) = .ok bs := by
  by_cases h : bs = []
  · rw [h]
    rfl
  · obtain ⟨xs, ys, rfl, hxs, hpos, hle⟩ := exists_groups bs h
    obtain ⟨front, hfront, hlt, hlength, hgroups⟩ := encode_whole hxs
    obtain ⟨last, k, hlast, hlt', htwo, hfour, hfinish⟩ := encode_last hpos hle
    rw [encode_append ys hxs, hfront, hlast]
    have hne : front.map symbol ++ (last.map symbol ++ List.replicate k pad) ≠ [] := by
      intro he
      have := congrArg List.length he
      simp only [List.length_append, List.length_map, List.length_nil] at this
      omega
    have hrest :
        (front.map symbol ++ (last.map symbol ++ List.replicate k pad)).length % 4 = 0 := by
      simp only [List.length_append, List.length_map, List.length_replicate]
      omega
    have hwhole : (front.map symbol ++ (last.map symbol ++ List.replicate k pad)).length - 0 - 4
        = (front.map symbol).length := by
      simp only [List.length_append, List.length_map, List.length_replicate]
      omega
    rw [decode]
    simp only [if_neg hne, hrest, Nat.zero_ne_one, false_and, if_false, if_true, hwhole,
      List.take_left, List.drop_left, values_symbols hlt, lastGroup_symbols hlt' htwo, hfinish,
      hgroups, bind, Except.bind]
    rfl

/-- Base64 text is ASCII. -/
theorem encode_lt {bs : Bytes} : ∀ b ∈ encode bs, b < 128 := by
  have hsymbol {ns : List Nat} (h : ∀ n ∈ ns, n < 64) : ∀ b ∈ ns.map symbol, b < 128 := by
    intro b hb
    obtain ⟨n, hn, rfl⟩ := List.mem_map.1 hb
    exact (value?_symbol n (h n hn)).2.2
  intro b hb
  by_cases h : bs = []
  · rw [h] at hb
    exact absurd hb List.not_mem_nil
  · obtain ⟨xs, ys, rfl, hxs, hpos, hle⟩ := exists_groups bs h
    obtain ⟨front, hfront, hlt, -⟩ := encode_whole hxs
    obtain ⟨last, k, hlast, hlt', -⟩ := encode_last hpos hle
    rw [encode_append ys hxs, hfront, hlast] at hb
    rcases List.mem_append.1 hb with hb | hb
    · exact hsymbol hlt b hb
    rcases List.mem_append.1 hb with hb | hb
    · exact hsymbol hlt' b hb
    · rw [List.eq_of_mem_replicate hb]
      decide

/-- The bytes of a string of ASCII bytes are these bytes. -/
theorem ofString_text {bs : Bytes} (h : ∀ b ∈ bs, b < 128) :
    Utf8.ofString (String.ofList (bs.map fun b => Char.ofNat b.toNat)) = bs := by
  rw [Utf8.ofString, String.toList_ofList]
  induction bs with
  | nil => rfl
  | cons b bs ih =>
    obtain ⟨hb, hbs⟩ := List.forall_mem_cons.1 h
    have hlt : b.toNat < 128 := UInt8.lt_iff_toNat_lt.1 hb
    have hval : (Char.ofNat b.toNat).val.toNat = b.toNat := by
      rw [Char.ofNat, dif_pos (.inl (by omega))]
      rfl
    have hchar : String.utf8EncodeChar (Char.ofNat b.toNat) = [b] := by
      unfold String.utf8EncodeChar
      simp only [hval]
      rw [if_pos (by omega), UInt8.ofNat_toNat]
    rw [List.map_cons, Utf8.encode_cons, ih hbs, hchar]
    rfl

end Base64
end EventSourcing
