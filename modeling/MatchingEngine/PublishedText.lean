import Mathlib
import MatchingEngine.NearestEven
import MatchingEngine.RedisMarketData

/-! # What subscribers can read

The two payloads read back, and the text of a price as the nearest whole number of millionths. -/
namespace PublishedText

open EngineTypes
open Orders
open RedisMarketData
open NearestEven

/-! ## Doubles as numbers -/

def significand (m : ℕ) : ℕ := if m / 2 ^ 52 = 0 then m % 2 ^ 52 else 2 ^ 52 + m % 2 ^ 52

def scale (m : ℕ) : ℕ := max (m / 2 ^ 52) 1

/-- The number that exponent and fraction fields stand for. -/
def magnitudeValue (m : ℕ) : ℚ := significand m * 2 ^ scale m / 2 ^ 1075

/-- The number that a finite double stands for. -/
def value (x : Double) : ℚ :=
  if x.negative then -magnitudeValue x.magnitude else magnitudeValue x.magnitude

theorem significand_lt (m : ℕ) : significand m < 2 ^ 53 := by
  rw [significand]
  split <;> omega

theorem magnitudeValue_mono {m n : ℕ} (h : m ≤ n) : magnitudeValue m ≤ magnitudeValue n := by
  have hnat : significand m * 2 ^ scale m ≤ significand n * 2 ^ scale n := by
    rcases Nat.lt_or_ge (scale m) (scale n) with hlt | hge
    · have hbig : 2 ^ 52 ≤ significand n := by
        rw [scale, scale] at hlt
        rw [significand, if_neg (by omega)]
        omega
      calc significand m * 2 ^ scale m
          ≤ 2 ^ 53 * 2 ^ scale m := Nat.mul_le_mul_right _ (significand_lt m).le
        _ = 2 ^ 52 * 2 ^ (scale m + 1) := by ring
        _ ≤ significand n * 2 ^ scale n :=
          Nat.mul_le_mul hbig (Nat.pow_le_pow_right (by decide) hlt)
    · have hscale : scale m = scale n := by
        rw [scale, scale] at hge ⊢
        have := Nat.div_le_div_right h (c := 2 ^ 52)
        omega
      rw [hscale]
      apply Nat.mul_le_mul_right
      rw [scale, scale] at hscale
      rw [significand, significand]
      split <;> split <;> omega
  rw [magnitudeValue, magnitudeValue]
  apply div_le_div_of_nonneg_right _ (by positivity)
  exact_mod_cast hnat

theorem not_negative (p : LimitPrice) : p.val.negative = false := by
  have hpos := p.rank_pos
  by_contra hn
  rw [Bool.not_eq_false] at hn
  rw [Double.rank, if_pos hn] at hpos
  omega

theorem magnitude_eq_bits (p : LimitPrice) : p.val.magnitude = p.val.bits.toNat := by
  have hrank := p.rank_eq_bits
  simpa [Double.rank, not_negative p] using hrank

theorem value_limitPrice (p : LimitPrice) : value p.val = magnitudeValue p.val.magnitude := by
  rw [value, not_negative p]
  rfl

/-- Prices are ordered as the numbers that they stand for. -/
theorem value_mono {p q : LimitPrice} (h : p ≤ q) : value p.val ≤ value q.val := by
  rw [value_limitPrice, value_limitPrice, magnitude_eq_bits, magnitude_eq_bits]
  exact magnitudeValue_mono h

/-! ## Millionths -/

theorem roundHalfEven_nearest (n : ℕ) {d : ℕ} (hd : 0 < d) :
    Nearest ((n : ℚ) / d) (roundHalfEven n d) := by
  have hlt : n % d < d := Nat.mod_lt _ hd
  have hsplit : d * (n / d) + n % d = n := Nat.div_add_mod n d
  have hnext : d * (n / d + 1) = d * (n / d) + d := Nat.mul_succ _ _
  have hnear : Nearest (((n : ℤ) : ℚ) / ((d : ℤ) : ℚ)) (roundHalfEven n d) := by
    -- the distance to the quotient is the remainder, and to the next number what it lacks
    apply nearest_div (by omega)
    · rw [← Nat.cast_mul, roundHalfEven, abs_le]
      split_ifs <;> omega
    · rw [← Nat.cast_mul, roundHalfEven]
      intro htie
      rw [abs_eq (by omega)] at htie
      split_ifs at htie ⊢ with hless hmore heven
      · omega
      · omega
      · rw [Int.even_iff]
        omega
      · rw [Int.even_iff]
        omega
  simpa using hnear

theorem millionths_eq (x : Double) : millionths x =
    if 1075 ≤ scale x.magnitude then
      significand x.magnitude * 10 ^ 6 * 2 ^ (scale x.magnitude - 1075)
    else roundHalfEven (significand x.magnitude * 10 ^ 6) (2 ^ (1075 - scale x.magnitude)) := rfl

/-- What `num` shows of a finite double is its size to the nearest millionth. -/
theorem millionths_nearest (x : Double) :
    Nearest (10 ^ 6 * magnitudeValue x.magnitude) (millionths x) := by
  rw [millionths_eq, magnitudeValue]
  generalize significand x.magnitude = n
  generalize scale x.magnitude = e
  split
  · rename_i hbig
    obtain ⟨k, rfl⟩ := Nat.exists_eq_add_of_le hbig
    have hexact : 10 ^ 6 * ((n : ℚ) * 2 ^ (1075 + k) / 2 ^ 1075) =
        ((n * 10 ^ 6 * 2 ^ (1075 + k - 1075) : ℕ) : ℤ) := by
      rw [pow_add, Nat.add_sub_cancel_left]
      push_cast
      field_simp
      ring
    apply nearest_of_lt
    rw [hexact, sub_self, abs_zero]
    norm_num
  · rename_i hsmall
    obtain ⟨k, hk⟩ := Nat.exists_eq_add_of_le (Nat.le_of_not_le hsmall)
    have hdown : (2 : ℚ) ^ 1075 = 2 ^ e * 2 ^ k := by rw [hk, pow_add]
    have hquotient : 10 ^ 6 * ((n : ℚ) * 2 ^ e / 2 ^ 1075) =
        ((n * 10 ^ 6 : ℕ) : ℚ) / ((2 ^ k : ℕ) : ℚ) := by
      rw [hdown]
      push_cast
      field_simp
      ring
    rw [hquotient, hk, Nat.add_sub_cancel_left]
    exact roundHalfEven_nearest _ (by positivity)

theorem millionths_limitPrice (p : LimitPrice) : Nearest (10 ^ 6 * value p.val) (millionths p.val) := by
  rw [value_limitPrice]
  exact millionths_nearest p.val

/-- The text shows prices in their order, though two of them may look the same. -/
theorem millionths_mono {p q : LimitPrice} (h : p ≤ q) : millionths p.val ≤ millionths q.val := by
  have hscaled : 10 ^ 6 * value p.val ≤ 10 ^ 6 * value q.val :=
    mul_le_mul_of_nonneg_left (value_mono h) (by positivity)
  exact_mod_cast (millionths_limitPrice p).mono (millionths_limitPrice q) hscaled

/-! ## Reading the texts -/

def fields (sep : Char) (text : String) : List String :=
  (text.toList.splitOn sep).map String.ofList

/-- The number of millionths that a price with six decimals shows. -/
def readPrice (text : String) : ℕ := Nat.ofDigitChars 10 (text.toList.filter (· ≠ '.')) 0

/-- Buy id, sell id, millionths, quantity and time. -/
def readTrade (text : String) : Option (ℕ × ℕ × ℕ × ℤ × ℤ) :=
  match fields ',' text with
  | [buyId, sellId, price, quantity, epochNanos] => do
    let buyId ← buyId.toNat?
    let sellId ← sellId.toNat?
    let quantity ← quantity.toInt?
    let epochNanos ← epochNanos.toInt?
    return (buyId, sellId, readPrice price, quantity, epochNanos)
  | _ => none

def readSide (text : String) : Option ℕ := if text = "-" then none else some (readPrice text)

def readBook (text : String) : Option (Option ℕ × Option ℕ) :=
  match fields ',' text with
  | [bid, ask] => some (readSide bid, readSide ask)
  | _ => none

theorem digits_only {c : Char} (hc : c.isDigit = false) (n : ℕ) : c ∉ Nat.toDigits 10 n := by
  intro hm
  rw [Nat.isDigit_of_mem_toDigits (by decide) (by decide) hm] at hc
  cases hc

theorem num_toList (p : LimitPrice) : (num p.val).toList =
    Nat.toDigits 10 (millionths p.val / 10 ^ 6) ++
      '.' :: List.leftpad 6 '0' (Nat.toDigits 10 (millionths p.val % 10 ^ 6)) := by
  rw [num, not_negative p, p.not_nan, p.finite]
  simp [Nat.repr_eq_ofList_toDigits]

theorem length_decimals (n : ℕ) :
    (List.leftpad 6 '0' (Nat.toDigits 10 (n % 10 ^ 6))).length = 6 := by
  rw [List.length_leftpad]
  have hfew := (Nat.length_toDigits_le_iff (b := 10) (n := n % 10 ^ 6) (k := 6) (by decide)
    (by decide)).mpr (Nat.mod_lt _ (by decide))
  omega

theorem readPrice_num (p : LimitPrice) : readPrice (num p.val) = millionths p.val := by
  have hdot : ∀ n, (Nat.toDigits 10 n).filter (· ≠ '.') = Nat.toDigits 10 n := by
    intro n
    apply List.filter_eq_self.mpr
    intro c hc
    simpa using fun he : c = '.' => digits_only (by decide) n (he ▸ hc)
  have hpad : (List.leftpad 6 '0' (Nat.toDigits 10 (millionths p.val % 10 ^ 6))).filter (· ≠ '.') =
      List.leftpad 6 '0' (Nat.toDigits 10 (millionths p.val % 10 ^ 6)) := by
    rw [List.leftpad, List.filter_append, hdot]
    simp
  rw [readPrice, num_toList, List.filter_append, hdot, List.filter_cons_of_neg (by simp), hpad,
    Nat.ofDigitChars_append, Nat.ofDigitChars_ten_toDigits, Nat.ofDigitChars_eq_ofDigitChars_zero,
    length_decimals, List.leftpad, Nat.ofDigitChars_append, Nat.ofDigitChars_replicate_zero,
    Nat.mul_zero, Nat.ofDigitChars_ten_toDigits]
  exact Nat.div_add_mod _ _

theorem comma_not_num (p : LimitPrice) : ',' ∉ (num p.val).toList := by
  rw [num_toList, List.leftpad]
  simp only [List.mem_append, List.mem_cons, List.mem_replicate, not_or]
  exact ⟨digits_only (by decide) _, by decide, by simp, digits_only (by decide) _⟩

theorem comma_not_nat (n : ℕ) : ',' ∉ (toString n).toList := by
  have hdigits := digits_only (c := ',') (by decide) n
  simpa [Nat.repr_eq_ofList_toDigits] using hdigits

theorem comma_not_int (n : ℤ) : ',' ∉ (toString n).toList := by
  have hdigits := fun k => digits_only (c := ',') (by decide) k
  change ',' ∉ n.repr.toList
  rw [Int.repr_eq_if]
  split <;> simp [hdigits]

theorem fields_cons {sep : Char} {first : String} (h : sep ∉ first.toList) (rest : String) :
    fields sep (first ++ String.singleton sep ++ rest) = first :: fields sep rest := by
  simp only [fields, String.toList_append, String.toList_singleton, List.append_assoc,
    List.singleton_append]
  rw [List.splitOn_append_cons_self_of_not_mem h, List.map_cons, String.ofList_toList]

theorem fields_last {sep : Char} {text : String} (h : sep ∉ text.toList) :
    fields sep text = [text] := by
  rw [fields, List.splitOn_eq_singleton h, List.map_singleton, String.ofList_toList]

/-! ## The round trips -/

/-- What a trade is announced with: the payload on the channel of the trades. -/
def tradePayload (t : Trade) (now : Int64) : String :=
  toString t.buyOrderId.toNat ++ "," ++ toString t.sellOrderId.toNat ++ "," ++ num t.price.val ++
    "," ++ toString t.quantity.toInt ++ "," ++ toString now.toInt

/-- The message of `onTrade`. -/
def tradeMsg (t : Trade) (now : Int64) : Msg :=
  .trade t.buyOrderId t.sellOrderId t.price.val t.quantity now

theorem commands_tradeMsg (t : Trade) (now : Int64) : (tradeMsg t now).commands =
    [.publish "md:trades" (tradePayload t now), .set "md:last_price" (num t.price.val),
      .incr "md:trade_count"] := rfl

theorem readTrade_payload (t : Trade) (now : Int64) : readTrade (tradePayload t now) =
    some (t.buyOrderId.toNat, t.sellOrderId.toNat, millionths t.price.val, t.quantity.toInt,
      now.toInt) := by
  have hsplit : fields ',' (tradePayload t now) = [toString t.buyOrderId.toNat,
      toString t.sellOrderId.toNat, num t.price.val, toString t.quantity.toInt,
      toString now.toInt] := by
    have hcomma : "," = String.singleton ',' := rfl
    rw [tradePayload, hcomma]
    simp only [String.append_assoc]
    rw [← String.append_assoc, fields_cons (comma_not_nat _), ← String.append_assoc,
      fields_cons (comma_not_nat _), ← String.append_assoc, fields_cons (comma_not_num _),
      ← String.append_assoc, fields_cons (comma_not_int _), fields_last (comma_not_int _)]
  have hnat : ∀ n : ℕ, (toString n).toNat? = some n := Nat.toNat?_repr
  have hint : ∀ n : ℤ, (toString n).toInt? = some n := Int.toInt?_repr
  rw [readTrade, hsplit]
  simp only [hnat, hint, readPrice_num]
  rfl

/-- The message of `onTopOfBook` for the two best prices. -/
def bookMsg (bid ask : Option LimitPrice) : Msg :=
  .book bid.isSome ask.isSome ((bid.map LimitPrice.val).getD Double.zero)
    ((ask.map LimitPrice.val).getD Double.zero)

def bookPayload (bid ask : Option LimitPrice) : String :=
  (bid.map fun p => num p.val).getD "-" ++ "," ++ (ask.map fun p => num p.val).getD "-"

theorem commands_bookMsg (bid ask : Option LimitPrice) :
    ∃ cacheBid cacheAsk, (bookMsg bid ask).commands =
      [cacheBid, cacheAsk, .publish "md:book" (bookPayload bid ask)] := by
  cases bid <;> cases ask <;> exact ⟨_, _, rfl⟩

theorem readSide_num (p : LimitPrice) : readSide (num p.val) = some (millionths p.val) := by
  have hdash : num p.val ≠ "-" := by
    intro he
    have hlist := congrArg String.toList he
    rw [num_toList] at hlist
    have hdot : '.' ∈ "-".toList := hlist ▸ by simp
    simp at hdot
  rw [readSide, if_neg hdash, readPrice_num]

theorem readBook_payload (bid ask : Option LimitPrice) : readBook (bookPayload bid ask) =
    some (bid.map fun p => millionths p.val, ask.map fun p => millionths p.val) := by
  have hside : ∀ side : Option LimitPrice,
      ',' ∉ ((side.map fun p => num p.val).getD "-").toList ∧
        readSide ((side.map fun p => num p.val).getD "-") = side.map fun p => millionths p.val := by
    intro side
    cases side with
    | none => exact ⟨by simp, by simp [readSide]⟩
    | some p => exact ⟨comma_not_num p, readSide_num p⟩
  have hcomma : "," = String.singleton ',' := rfl
  rw [readBook, bookPayload, hcomma, fields_cons (hside bid).1, fields_last (hside ask).1]
  simp only [(hside bid).2, (hside ask).2]

/-- From what is published of a trade its ids, its quantity and its time are read back, and its
price to the nearest millionth; from what is published of the top of the book its two prices are,
and whether they are there. Prices are never shown out of their order. -/
theorem texts_read_back :
    (∀ (t : Trade) (now : Int64), ∃ payload, .publish "md:trades" payload ∈ (tradeMsg t now).commands ∧
      readTrade payload = some (t.buyOrderId.toNat, t.sellOrderId.toNat, millionths t.price.val,
        t.quantity.toInt, now.toInt)) ∧
    (∀ bid ask : Option LimitPrice, ∃ payload, .publish "md:book" payload ∈ (bookMsg bid ask).commands ∧
      readBook payload = some (bid.map fun p => millionths p.val, ask.map fun p => millionths p.val)) ∧
    (∀ p : LimitPrice, Nearest (10 ^ 6 * value p.val) (millionths p.val)) ∧
    ∀ p q : LimitPrice, p ≤ q → millionths p.val ≤ millionths q.val := by
  refine ⟨fun t now => ?_, fun bid ask => ?_, millionths_limitPrice, fun p q => millionths_mono⟩
  · refine ⟨tradePayload t now, ?_, readTrade_payload t now⟩
    rw [commands_tradeMsg]
    exact List.mem_cons_self
  · obtain ⟨cacheBid, cacheAsk, hcommands⟩ := commands_bookMsg bid ask
    refine ⟨bookPayload bid ask, ?_, readBook_payload bid ask⟩
    rw [hcommands]
    simp

/-- 1e-7: a price that the book takes and subscribers see as nothing. -/
example : num ⟨0x3E7AD7F29ABCAF48⟩ = "0.000000" := by decide +kernel

end PublishedText
