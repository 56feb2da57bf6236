/-
The session mapping of a cookie.

`claims_to_session` writes the instants of claims as binary64 timestamps, in seconds, and
`claims_from_session` reads them back to the microsecond, from whatever JSON the cookie holds.

* `fromTimestamp_timestamp` — an instant comes back, up to the year 2242;
* **`claims_round_trip`** — claims come back from the cookie they were put into.
-/
import Lsstack.Binary64
import Lsstack.Database
import Lsstack.ProcessCoordinator

namespace Lsstack

/-! ### Timestamps -/

/-- `datetime.timestamp` of an aware datetime. -/
def timestamp (t : Instant) : ℚ := Binary64.round (t / 10 ^ 6)

/-- The whole part of C's `modf`. -/
def truncated (x : ℚ) : ℤ := if 0 ≤ x then ⌊x⌋ else ⌈x⌉

/-- The instants of `datetime`, from the year 1 to 9999. -/
def inCalendar (t : Instant) : Bool :=
  decide (-62135596800 * 10 ^ 6 ≤ t ∧ t < 253402300800 * 10 ^ 6)

/-- `datetime.fromtimestamp` with a time zone; `none` is an exception. -/
def fromTimestamp (x : ℚ) : Option Instant :=
  let whole := truncated x
  let microseconds := Binary64.roundEven (Binary64.round ((x - whole) * 10 ^ 6))
  let t : Instant := whole * 10 ^ 6 + microseconds
  if inCalendar t then some t else none

/-- How far binary64 timestamps tell microseconds apart, in microseconds: the year 2242. -/
def timestampLimit : ℤ := 2 ^ 33 * 10 ^ 6

section Timestamps

variable {t t' : Instant}

theorem abs_seconds_lt (h : |t| < timestampLimit) : |(t : ℚ) / 10 ^ 6| < 2 ^ (33 : ℤ) := by
  have hcast : |(t : ℚ)| < 2 ^ 33 * 10 ^ 6 := by exact_mod_cast h
  rw [abs_div, abs_of_pos (by norm_num : (0 : ℚ) < 10 ^ 6), div_lt_iff₀ (by norm_num)]
  exact_mod_cast hcast

theorem abs_timestamp_sub_le (h : |t| < timestampLimit) :
    |timestamp t - t / 10 ^ 6| ≤ 1 / 2 ^ 21 := by
  refine (Binary64.abs_round_sub_le (abs_seconds_lt h)).trans_eq ?_
  norm_num

/-- What is left after the whole part. -/
theorem abs_sub_truncated_lt (x : ℚ) : |x - truncated x| < 1 := by
  rw [truncated, abs_lt]
  split
  · have hle := Int.floor_le x
    have hlt := Int.lt_floor_add_one x
    constructor
    · linarith
    · linarith
  · have hle := Int.le_ceil x
    have hlt := Int.ceil_lt_add_one x
    constructor
    · linarith
    · linarith

/-- **An instant comes back** from its timestamp. -/
theorem fromTimestamp_timestamp (h : |t| < timestampLimit) (hcalendar : inCalendar t = true) :
    fromTimestamp (timestamp t) = some t := by
  have hnear := abs_le.mp (abs_timestamp_sub_le h)
  set x := timestamp t
  have hfraction : |(x - truncated x) * 10 ^ 6| < 2 ^ (20 : ℤ) := by
    rw [abs_mul, abs_of_pos (by norm_num : (0 : ℚ) < 10 ^ 6)]
    have hlt := abs_sub_truncated_lt x
    have hsmall : (10 : ℚ) ^ 6 < 2 ^ (20 : ℤ) := by norm_num
    linarith
  -- the two roundings together stay below half a microsecond
  have hround := abs_le.mp (Binary64.abs_round_sub_le hfraction)
  have herror : (2 : ℚ) ^ ((20 : ℤ) - 54) = 1 / 2 ^ 34 := by norm_num
  rw [herror] at hround
  have hmicroseconds : Binary64.roundEven (Binary64.round ((x - truncated x) * 10 ^ 6)) =
      t - truncated x * 10 ^ 6 := by
    refine Binary64.roundEven_eq ?_
    push_cast
    rw [abs_lt]
    constructor
    · linarith
    · linarith
  have htotal : truncated x * 10 ^ 6 + (t - truncated x * 10 ^ 6) = t := add_sub_cancel _ _
  rw [fromTimestamp, hmicroseconds, htotal, if_pos hcalendar]

/-- Instants a microsecond apart have timestamps in their order. -/
theorem timestamp_lt (h : |t| < timestampLimit) (h' : |t'| < timestampLimit) (hlt : t < t') :
    timestamp t < timestamp t' := by
  have hnear := abs_le.mp (abs_timestamp_sub_le h)
  have hnear' := abs_le.mp (abs_timestamp_sub_le h')
  have hstep : (t : ℚ) + 1 ≤ t' := by exact_mod_cast hlt
  linarith

end Timestamps

/-! ### The mapping -/

/-- `claims_to_session`. -/
def claimsToSession (claims : SessionClaims) : JsonValue :=
  .dict [("user_id", .int claims.userId), ("session_version", .int claims.sessionVersion),
    ("issued_at", .float (timestamp claims.issuedAt)),
    ("expires_at", .float (timestamp claims.expiresAt))]

/-- `isinstance(value, int) and not isinstance(value, bool)`. -/
def integerOf : Option JsonValue → Option ℤ
  | some (.int n) => some n
  | _ => none

/-- `isinstance(value, int | float) and not isinstance(value, bool)`. -/
def numberOf : Option JsonValue → Option ℚ
  | some (.int n) => some n
  | some (.float x) => some x
  | _ => none

/-- `claims_from_session`. -/
def claimsFromSession : JsonValue → Option SessionClaims
  | .dict mapping => do
    let userId ← integerOf (JsonObject.get mapping "user_id")
    let version ← integerOf (JsonObject.get mapping "session_version")
    let issued ← numberOf (JsonObject.get mapping "issued_at")
    let expires ← numberOf (JsonObject.get mapping "expires_at")
    if userId < 1 ∨ version < 0 ∨ expires ≤ issued then none
    else
      let issuedAt ← fromTimestamp issued
      let expiresAt ← fromTimestamp expires
      return ⟨userId.toNat, version.toNat, issuedAt, expiresAt⟩
  | _ => none

/-- **Claims come back** from the mapping of their cookie. -/
theorem claims_round_trip {claims : SessionClaims} (huser : 1 ≤ claims.userId)
    (horder : claims.issuedAt < claims.expiresAt) (hissued : |claims.issuedAt| < timestampLimit)
    (hexpires : |claims.expiresAt| < timestampLimit) :
    claimsFromSession (claimsToSession claims) = some claims := by
  have hcalendar : ∀ t : Instant, |t| < timestampLimit → inCalendar t = true := by
    intro t ht
    obtain ⟨hlower, hupper⟩ := abs_lt.mp ht
    rw [timestampLimit] at hlower hupper
    refine decide_eq_true ⟨?_, ?_⟩
    · linarith
    · linarith
  have hchecked : ¬ ((claims.userId : ℤ) < 1 ∨ (claims.sessionVersion : ℤ) < 0 ∨
      timestamp claims.expiresAt ≤ timestamp claims.issuedAt) := by
    rintro (h | h | h)
    · omega
    · omega
    · exact absurd (timestamp_lt hissued hexpires horder) (not_lt.mpr h)
  show (if (claims.userId : ℤ) < 1 ∨ (claims.sessionVersion : ℤ) < 0 ∨
      timestamp claims.expiresAt ≤ timestamp claims.issuedAt then none else _) = _
  rw [if_neg hchecked, fromTimestamp_timestamp hissued (hcalendar _ hissued),
    fromTimestamp_timestamp hexpires (hcalendar _ hexpires)]
  rfl

theorem claims_round_trip_first :
    claimsFromSession (claimsToSession ⟨1, 0, 0, 3600 * 1000000⟩) =
      some ⟨1, 0, 0, 3600 * 1000000⟩ :=
  claims_round_trip (by decide) (by decide) (by norm_num [timestampLimit])
    (by norm_num [timestampLimit])

end Lsstack
