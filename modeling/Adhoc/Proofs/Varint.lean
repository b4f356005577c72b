import Adhoc.Container.Varint
import Mathlib

namespace Adhoc

open List Option

/-- The number that big-endian bytes spell is the one they were made of, up to higher digits. -/
theorem ofBigEndian_bigEndian (count n high : Nat) :
    ofBigEndian high (bigEndian count n) = high * 256 ^ count + n % 256 ^ count := by
  induction count generalizing high with
  | zero => simp [bigEndian, ofBigEndian, Nat.mod_one]
  | succ count ih =>
    have hstep : ofBigEndian high (bigEndian (count + 1) n) =
        ofBigEndian (high * 256 + n / 256 ^ count % 256) (bigEndian count n) := by
      simp [bigEndian, ofBigEndian]
    have hdigit : n % 256 ^ (count + 1) = n % 256 ^ count + 256 ^ count * (n / 256 ^ count % 256) := by
      rw [pow_succ, Nat.mod_mul]
    rw [hstep, ih, hdigit]
    ring

theorem ofBigEndian_bigEndian_of_lt {count n : Nat} (h : n < 256 ^ count) :
    ofBigEndian 0 (bigEndian count n) = n := by
  rw [ofBigEndian_bigEndian, Nat.mod_eq_of_lt h, Nat.zero_mul, Nat.zero_add]

theorem ofBigEndian_lt (high : Nat) (bytes : List UInt8) :
    ofBigEndian high bytes < (high + 1) * 256 ^ bytes.length := by
  induction bytes generalizing high with
  | nil => simp [ofBigEndian]
  | cons b bytes ih =>
    have hdigit : high * 256 + b.toNat + 1 ≤ (high + 1) * 256 := by
      have := b.toNat_lt
      omega
    calc ofBigEndian high (b :: bytes)
      _ = ofBigEndian (high * 256 + b.toNat) bytes := rfl
      _ < (high * 256 + b.toNat + 1) * 256 ^ bytes.length := ih _
      _ ≤ (high + 1) * 256 * 256 ^ bytes.length := Nat.mul_le_mul_right _ hdigit
      _ = (high + 1) * 256 ^ (b :: bytes).length := by rw [length_cons, pow_succ]; ring

theorem bigEndian_inj {count n m : Nat} (hn : n < 256 ^ count) (hm : m < 256 ^ count)
    (h : bigEndian count n = bigEndian count m) : n = m := by
  rw [← ofBigEndian_bigEndian_of_lt hn, h, ofBigEndian_bigEndian_of_lt hm]

theorem bigEndian_ofBigEndian (high : Nat) (bytes : List UInt8) :
    ofBigEndian high bytes / 256 ^ bytes.length = high ∧
      bigEndian bytes.length (ofBigEndian high bytes) = bytes := by
  induction bytes generalizing high with
  | nil => simp [ofBigEndian, bigEndian]
  | cons b bytes ih =>
    have hb := b.toNat_lt
    obtain ⟨hhigh, htail⟩ := ih (high * 256 + b.toNat)
    have hlow : UInt8.ofNat (high * 256 + b.toNat) = b := by
      apply UInt8.toNat_inj.1
      rw [UInt8.toNat_ofNat']
      omega
    rw [show ofBigEndian high (b :: bytes) = ofBigEndian (high * 256 + b.toNat) bytes from rfl,
      length_cons, pow_succ, ← Nat.div_div_eq_div_mul, hhigh, bigEndian, Nat.pow_eq, hhigh, htail]
    exact ⟨by omega, by rw [hlow]⟩

namespace Varint

variable {bytes tail rest : List UInt8} {n digits k start size finish : Nat}

theorem room_eq (hk : k < 8) : 256 ^ k * 2 ^ (7 - k) = 2 ^ (7 + 7 * k) := by
  rw [show 256 = 2 ^ 8 by rfl, ← pow_mul, ← pow_add]
  congr 1
  omega

theorem lt_room (h : n < 2 ^ 64) :
    following n ≤ 8 ∧ n < 256 ^ following n * 2 ^ (7 - following n) := by
  unfold following
  cases hfind : (range 8).find? fun k => n < Nat.pow 2 (7 + 7 * k) with
  | none => exact ⟨le_rfl, by simpa using h⟩
  | some k =>
    obtain ⟨hn, hk, -⟩ := find?_range_eq_some.1 hfind
    rw [mem_range] at hk
    refine ⟨by simpa using hk.le, ?_⟩
    simpa [room_eq hk] using hn

theorem following_le (hn : n < 256 ^ k * 2 ^ (7 - k)) : following n ≤ k := by
  apply Nat.le_of_not_lt
  intro hlt
  unfold following at hlt
  cases hfind : (range 8).find? fun k => n < Nat.pow 2 (7 + 7 * k) with
  | none =>
    rw [hfind] at hlt
    rw [room_eq hlt] at hn
    simpa [hn] using find?_range_eq_none.1 hfind k hlt
  | some j =>
    rw [hfind] at hlt
    obtain ⟨-, hj, hleast⟩ := find?_range_eq_some.1 hfind
    rw [room_eq (hlt.trans (mem_range.1 hj))] at hn
    simpa [hn] using hleast k hlt

/-- As many ones as bytes follow, then a zero, then the highest digits of the number. -/
def firstByte (k digits : Nat) : UInt8 := UInt8.ofNat (256 - 2 ^ (8 - k) + digits)

theorem toNat_firstByte (hk : k ≤ 8) (hd : digits < 2 ^ (7 - k)) :
    (firstByte k digits).toNat = 256 - 2 ^ (8 - k) + digits := by
  have hpos : 0 < 2 ^ (8 - k) := by positivity
  have hle : 2 ^ (7 - k) ≤ 2 ^ (8 - k) := Nat.pow_le_pow_right (by decide) (by omega)
  have hmax : 2 ^ (8 - k) ≤ 2 ^ 8 := Nat.pow_le_pow_right (by decide) (by omega)
  rw [firstByte, UInt8.toNat_ofNat']
  exact Nat.mod_eq_of_lt (by omega)

theorem mark_le_firstByte {j : Nat} (hk : k ≤ 8) (hj : j < k) (hd : digits < 2 ^ (7 - k)) :
    256 - 2 ^ (7 - j) ≤ (firstByte k digits).toNat := by
  have hle : 2 ^ (8 - k) ≤ 2 ^ (7 - j) := Nat.pow_le_pow_right (by decide) (by omega)
  rw [toNat_firstByte hk hd]
  omega

theorem leadingOnes_firstByte (hk : k ≤ 8) (hd : digits < 2 ^ (7 - k)) :
    leadingOnes (firstByte k digits) = k := by
  unfold leadingOnes
  rcases hk.lt_or_eq with hlt | rfl
  · have hpos : 0 < 2 ^ (7 - k) := by positivity
    have hdouble : 2 ^ (8 - k) = 2 ^ (7 - k) * 2 := by rw [← pow_succ]; congr 1; omega
    have hmax : 2 ^ (8 - k) ≤ 2 ^ 8 := Nat.pow_le_pow_right (by decide) (by omega)
    have hbelow : (firstByte k digits).toNat < 256 - 2 ^ (7 - k) := by
      rw [toNat_firstByte hk hd]
      omega
    rw [find?_range_eq_some.2 ⟨by simpa using hbelow, mem_range.2 hlt, fun j hj => by
      simpa using mark_le_firstByte hk hj hd⟩, getD_some]
  · rw [find?_range_eq_none.2 fun j hj => by simpa using mark_le_firstByte hk hj hd,
      getD_none]

theorem firstByte_digits (hk : k ≤ 8) (hd : digits < 2 ^ (7 - k)) :
    (firstByte k digits).toNat % 2 ^ (7 - k) = digits := by
  rw [toNat_firstByte hk hd]
  interval_cases k <;> omega

theorem front?_firstByte (hk : tail.length ≤ 8) (hd : digits < 2 ^ (7 - tail.length)) :
    front? (firstByte tail.length digits :: (tail ++ rest)) =
      some (ofBigEndian digits tail, tail.length + 1) := by
  simp only [front?, leadingOnes_firstByte hk hd, take_left, firstByte_digits hk hd, Nat.pow_eq,
    if_true]

/-- A number is read back from its bytes, whatever follows them. -/
theorem front?_encode (h : n < 2 ^ 64) (rest : List UInt8) :
    front? (encode n ++ rest) = some (n, (encode n).length) := by
  obtain ⟨hk, hroom⟩ := lt_room h
  have hd : n / 256 ^ following n < 2 ^ (7 - following n) := Nat.div_lt_of_lt_mul hroom
  have hlength := length_bigEndian (following n) n
  have hfront : front? (firstByte (bigEndian (following n) n).length (n / 256 ^ following n) ::
      (bigEndian (following n) n ++ rest)) = _ :=
    front?_firstByte (hlength.trans_le hk) (by rwa [hlength])
  rw [ofBigEndian_bigEndian, Nat.div_add_mod'] at hfront
  nth_rewrite 1 [hlength] at hfront
  exact hfront

theorem front?_eq_some (h : front? bytes = some (n, size)) :
    ∃ digits tail rest, bytes = firstByte tail.length digits :: (tail ++ rest) ∧ tail.length ≤ 8 ∧
      digits < 2 ^ (7 - tail.length) ∧ n = ofBigEndian digits tail ∧ size = tail.length + 1 := by
  cases bytes with
  | nil => cases h
  | cons first rest =>
    simp only [front?, ite_none_right_eq_some, some.injEq, Prod.mk.injEq] at h
    obtain ⟨hlength, rfl, rfl⟩ := h
    -- There are only so many first bytes.
    have hfirst : ∀ b < 256, leadingOnes (UInt8.ofNat b) ≤ 8 ∧
        UInt8.ofNat b = firstByte (leadingOnes (UInt8.ofNat b))
          (b % 2 ^ (7 - leadingOnes (UInt8.ofNat b))) := by decide +kernel
    obtain ⟨hk, hfirst⟩ := hfirst first.toNat first.toNat_lt
    rw [UInt8.ofNat_toNat] at hk hfirst
    refine ⟨first.toNat % 2 ^ (7 - leadingOnes first), rest.take (leadingOnes first),
      rest.drop (leadingOnes first), ?_, hlength.trans_le hk, ?_, rfl, by rw [hlength]⟩
    · rw [hlength, ← hfirst, take_append_drop]
    · rw [hlength]
      exact Nat.mod_lt _ (by positivity)

theorem ofBigEndian_lt_room (hd : digits < 2 ^ (7 - tail.length)) :
    ofBigEndian digits tail < 256 ^ tail.length * 2 ^ (7 - tail.length) :=
  (ofBigEndian_lt digits tail).trans_le (by rw [Nat.mul_comm]; exact Nat.mul_le_mul_left _ hd)

theorem front?_lt (h : front? bytes = some (n, size)) : n < 2 ^ 64 := by
  obtain ⟨digits, tail, rest, -, hk, hd, rfl, -⟩ := front?_eq_some h
  refine (ofBigEndian_lt_room hd).trans_le ?_
  generalize tail.length = k at hk
  interval_cases k <;> decide

theorem encode_append_inj {m : Nat} {r s : List UInt8} (hn : n < 2 ^ 64) (hm : m < 2 ^ 64)
    (h : encode n ++ r = encode m ++ s) : n = m ∧ r = s := by
  have hsame := front?_encode hn r
  rw [h, front?_encode hm s] at hsame
  obtain rfl : m = n := by simpa using congrArg (Option.map Prod.fst) hsame
  exact ⟨rfl, append_cancel_left h⟩

theorem decode?_of_append (hn : n < 2 ^ 64)
    (h : bytes.drop start = encode n ++ rest) :
    decode? bytes start = some (n, start + (encode n).length) := by
  rw [decode?, h, front?_encode hn]
  rfl

theorem decode?_lt (h : decode? bytes start = some (n, finish)) : n < 2 ^ 64 := by
  obtain ⟨⟨m, size⟩, hfront, hm⟩ := map_eq_some_iff.1 h
  obtain rfl : m = n := congrArg Prod.fst hm
  exact front?_lt hfront

theorem front?_take_encode (h : n < 2 ^ 64) (hk : k < (encode n).length) :
    front? ((encode n).take k) = none := by
  obtain ⟨hfollowing, hroom⟩ := lt_room h
  have hd : n / 256 ^ following n < 2 ^ (7 - following n) := Nat.div_lt_of_lt_mul hroom
  have hfirst : encode n = firstByte (following n) (n / 256 ^ following n) ::
      bigEndian (following n) n := rfl
  rw [hfirst, length_cons, length_bigEndian] at hk
  rw [hfirst]
  cases k with
  | zero => rfl
  | succ k =>
    simp only [take_succ_cons, front?, leadingOnes_firstByte hfollowing hd, length_take,
      length_bigEndian]
    exact if_neg (by omega)

theorem decodeFrom_flatMap_encode (ns : List UInt64) (start : Nat) :
    decodeFrom start (ns.flatMap fun n => encode n.toNat) = ns.mapIdx fun i n =>
      (n.toNat, start + ((ns.take (i + 1)).flatMap fun n => encode n.toNat).length) := by
  induction ns generalizing start with
  | nil =>
    rw [flatMap_nil, decodeFrom]
    rfl
  | cons n ns ih =>
    have hfront := front?_encode n.toNat_lt (ns.flatMap fun n => encode n.toNat)
    rw [flatMap_cons, decodeFrom]
    split
    · rename_i hnone
      cases hnone.symm.trans hfront
    · rename_i m size hsome
      cases hsome.symm.trans hfront
      rw [drop_left, ih, mapIdx_cons]
      simp [Nat.add_assoc]

/-- A number is read back from between any other bytes and nothing is read from a part of its bytes,
so that numbers in a row are read back as they are. -/
theorem decode_round_trip (before : List UInt8) :
    (∀ (n : UInt64) (after : List UInt8), decode? (before ++ encode n.toNat ++ after) before.length =
      some (n.toNat, before.length + (encode n.toNat).length)) ∧
    (∀ (n : UInt64) (k : Nat), k < (encode n.toNat).length →
      decode? (before ++ (encode n.toNat).take k) before.length = none) ∧
    ∀ ns : List UInt64, decodeAll (before ++ ns.flatMap fun n => encode n.toNat) before.length =
      ns.mapIdx fun i n =>
        (n.toNat, before.length + ((ns.take (i + 1)).flatMap fun n => encode n.toNat).length) := by
  refine ⟨fun n after => ?_, fun n k hk => ?_, fun ns => ?_⟩
  · exact decode?_of_append n.toNat_lt (by rw [List.append_assoc, List.drop_left])
  · rw [decode?, List.drop_left, front?_take_encode n.toNat_lt hk]
    rfl
  · rw [decodeAll, List.drop_left, decodeFrom_flatMap_encode]

/-- The largest number of each size stands next to the smallest one of the next size. -/
theorem boundaries_round_trip :
    decodeAll ([0xaa] ++ ([127, 128, 2 ^ 56 - 1, 2 ^ 56, 2 ^ 64 - 1] : List UInt64).flatMap
      fun n => encode n.toNat) 1 =
        [(127, 2), (128, 4), (2 ^ 56 - 1, 12), (2 ^ 56, 21), (2 ^ 64 - 1, 30)] ∧
    8 < (encode (2 ^ 56 : UInt64).toNat).length ∧
    decode? ([0xaa] ++ (encode (2 ^ 56 : UInt64).toNat).take 8) 1 = none := by
  have hlong : 8 < (encode (2 ^ 56 : UInt64).toNat).length := by decide +kernel
  refine ⟨Eq.trans ((decode_round_trip [0xaa]).2.2 _) ?_, hlong,
    (decode_round_trip [0xaa]).2.1 _ 8 hlong⟩
  decide +kernel

theorem decode?_eq_encode (h : decode? bytes start = some (n, finish)) :
    (encode n).length ≤ finish - start ∧ ((encode n).length = finish - start →
      (bytes.drop start).take (finish - start) = encode n) := by
  obtain ⟨⟨_, size⟩, hfront, hm⟩ := map_eq_some_iff.1 h
  cases hm
  obtain ⟨digits, tail, rest, hbytes, hk, hd, rfl, rfl⟩ := front?_eq_some hfront
  obtain ⟨hdigits, htail⟩ := bigEndian_ofBigEndian digits tail
  rw [Nat.add_sub_cancel_left, hbytes, take_succ_cons, take_left, encode, length_cons,
    length_bigEndian]
  refine ⟨Nat.succ_le_succ (following_le (ofBigEndian_lt_room hd)), fun hsame => ?_⟩
  rw [Nat.succ_inj.1 hsame, Nat.pow_eq, Nat.pow_eq, hdigits, htail]
  rfl

/-- What is read depends on no other bytes than the ones it takes. Its own bytes are no more than
those, and are the same if they are as many, so a number has one shortest form. -/
theorem decoded_shortest (h : decode? bytes start = some (n, finish)) :
    (∀ other : List UInt8,
      (other.drop start).take (finish - start) = (bytes.drop start).take (finish - start) →
      decode? other start = some (n, finish)) ∧
    (encode n).length ≤ finish - start ∧
    ((encode n).length = finish - start → encode n = (bytes.drop start).take (finish - start)) ∧
    ∀ (other : List UInt8) (start' finish' : Nat), decode? other start' = some (n, finish') →
      (encode n).length = finish - start → (encode n).length = finish' - start' →
      (other.drop start').take (finish' - start') = (bytes.drop start).take (finish - start) := by
  obtain ⟨hle, hown⟩ := decode?_eq_encode h
  refine ⟨fun other hsame => ?_, hle, fun hlength => (hown hlength).symm,
    fun other start' finish' h' hlength hlength' =>
      ((decode?_eq_encode h').2 hlength').trans (hown hlength).symm⟩
  obtain ⟨⟨_, size⟩, hfront, hm⟩ := Option.map_eq_some_iff.1 h
  cases hm
  obtain ⟨digits, tail, rest, hbytes, hk, hd, rfl, rfl⟩ := front?_eq_some hfront
  rw [Nat.add_sub_cancel_left, hbytes, List.take_succ_cons, List.take_left] at hsame
  rw [decode?, ← List.take_append_drop (tail.length + 1) (other.drop start), hsame, List.cons_append,
    front?_firstByte hk hd]
  rfl

/-- A first byte may ask for more bytes than the number needs. -/
theorem paddedNumber_shortest :
    decode? [0xaa, 0xfe, 1, 0, 0, 0, 0, 0, 0, 7] 1 = some (2 ^ 48, 9) ∧
    decode? [0xbb, 0xfe, 1, 0, 0, 0, 0, 0, 0] 1 = some (2 ^ 48, 9) ∧
    (encode (2 ^ 48)).length ≤ 9 - 1 ∧
    decode? [0xff, 1, 0, 0, 0, 0, 0, 0, 0] 0 = some (2 ^ 56, 9) ∧
    encode (2 ^ 56) = [0xff, 1, 0, 0, 0, 0, 0, 0, 0] := by
  have hpadded : decode? [0xaa, 0xfe, 1, 0, 0, 0, 0, 0, 0, 7] 1 = some (2 ^ 48, 9) := by decide +kernel
  have hlong : decode? [0xff, 1, 0, 0, 0, 0, 0, 0, 0] 0 = some (2 ^ 56, 9) := by decide +kernel
  exact ⟨hpadded, (decoded_shortest hpadded).1 _ rfl, (decoded_shortest hpadded).2.1, hlong,
    (decoded_shortest hlong).2.2.1 (by decide +kernel)⟩

end Varint
end Adhoc
