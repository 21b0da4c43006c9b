import McpToolkit.Base.Bytes
import McpToolkit.Base.Table
import Mathlib.Algebra.Order.Field.Rat
import Mathlib.Data.Rat.Cast.Order
import Mathlib.Tactic.Linarith
/-!
# Rate limiting

`RateLimiter` as the sources have it, with exact rationals for `double`.  An
operation takes place at one instant, which all its readings of the clock return;
time is counted in nanoseconds.
-/

namespace McpToolkit

structure TokenBucket where
  tokens : ℚ
  lastRefill : Int
  /-- Tokens per second. -/
  refillRate : ℚ
  maxTokens : ℚ
  deriving DecidableEq

namespace TokenBucket

/-- The constructor, which fills the bucket. -/
def new (now : Int) (rate burst : ℚ) : TokenBucket := ⟨burst, now, rate, burst⟩

/-- `duration_cast` to milliseconds, which truncates towards zero. -/
def milliseconds (nanoseconds : Int) : Int := nanoseconds.tdiv 1000000

/-- Refill according to the time since the last refill. -/
def refill (bucket : TokenBucket) (now : Int) : TokenBucket :=
  let elapsed := milliseconds (now - bucket.lastRefill)
  let elapsedSeconds : ℚ := elapsed / 1000
  let tokens := bucket.tokens + elapsedSeconds * bucket.refillRate
  let tokens := if tokens > bucket.maxTokens then bucket.maxTokens else tokens
  { bucket with tokens, lastRefill := now }

/-- Take a token if there is one. -/
def take (bucket : TokenBucket) : Bool × TokenBucket :=
  if bucket.tokens ≥ 1 then (true, { bucket with tokens := bucket.tokens - 1 })
  else (false, bucket)

def request (bucket : TokenBucket) (now : Int) : Bool × TokenBucket := (bucket.refill now).take

end TokenBucket

structure RateLimiter where
  buckets : Table Bytes TokenBucket := ∅
  defaultRefillRate : ℚ := 100
  defaultMaxTokens : ℚ := 10
  deriving DecidableEq

namespace RateLimiter

def configure (l : RateLimiter) (rps : ℚ) (burst : Nat) : RateLimiter :=
  { l with defaultRefillRate := rps, defaultMaxTokens := burst }

/-- The bucket of a client, a new one if there is none. -/
def bucketAt (l : RateLimiter) (clientId : Bytes) (now : Int) : TokenBucket :=
  (l.buckets.lookup clientId).getD (.new now l.defaultRefillRate l.defaultMaxTokens)

def allowRequest (l : RateLimiter) (clientId : Bytes) (now : Int) : Bool × RateLimiter :=
  let (allowed, bucket) := (l.bucketAt clientId now).request now
  (allowed, { l with buckets := l.buckets.insert clientId bucket })

def setRate (l : RateLimiter) (clientId : Bytes) (rps : ℚ) (now : Int) : RateLimiter :=
  match l.buckets.lookup clientId with
  | none => { l with buckets := l.buckets.insert clientId (.new now rps l.defaultMaxTokens) }
  | some bucket => { l with buckets := l.buckets.insert clientId { bucket with refillRate := rps } }

def setBurst (l : RateLimiter) (clientId : Bytes) (burst : Nat) (now : Int) : RateLimiter :=
  match l.buckets.lookup clientId with
  | none => { l with buckets := l.buckets.insert clientId (.new now l.defaultRefillRate burst) }
  | some bucket =>
      let tokens := if bucket.tokens > burst then (burst : ℚ) else bucket.tokens
      { l with buckets := l.buckets.insert clientId { bucket with maxTokens := burst, tokens } }

def resetClient (l : RateLimiter) (clientId : Bytes) : RateLimiter :=
  { l with buckets := l.buckets.erase clientId }

end RateLimiter

/-! ## Calls -/

inductive RateOp where
  | configure (rps : ℚ) (burst : Nat)
  | allowRequest (clientId : Bytes)
  | setRate (clientId : Bytes) (rps : ℚ)
  | setBurst (clientId : Bytes) (burst : Nat)
  | resetClient (clientId : Bytes)
  deriving DecidableEq

/-- An operation and the time at which it takes place. -/
structure RateCall where
  now : Int
  op : RateOp
  deriving DecidableEq

/-- One call; the answer is that of `allow_request`, false for the others. -/
def RateLimiter.step (l : RateLimiter) (c : RateCall) : Bool × RateLimiter :=
  match c.op with
  | .configure rps burst => (false, l.configure rps burst)
  | .allowRequest clientId => l.allowRequest clientId c.now
  | .setRate clientId rps => (false, l.setRate clientId rps c.now)
  | .setBurst clientId burst => (false, l.setBurst clientId burst c.now)
  | .resetClient clientId => (false, l.resetClient clientId)

/-! ## Refills -/

namespace TokenBucket

variable {bucket : TokenBucket} {now : Int}

theorem milliseconds_nonneg {d : Int} (hd : 0 ≤ d) : 0 ≤ milliseconds d :=
  Int.tdiv_nonneg hd (by decide)

/-- Truncation loses time. -/
theorem milliseconds_le {d : Int} (hd : 0 ≤ d) : (milliseconds d : ℚ) / 1000 ≤ d / 1000000000 := by
  have hle : milliseconds d * 1000000 ≤ d := by
    rw [milliseconds, Int.tdiv_eq_ediv_of_nonneg hd]
    exact Int.ediv_mul_le d (by decide)
  have hcast : (milliseconds d : ℚ) * 1000000 ≤ d := by exact_mod_cast hle
  linarith

/-- What the time since the last refill is worth. -/
def gain (bucket : TokenBucket) (now : Int) : ℚ :=
  milliseconds (now - bucket.lastRefill) / 1000 * bucket.refillRate

theorem refill_tokens (bucket : TokenBucket) (now : Int) :
    (bucket.refill now).tokens = min (bucket.tokens + bucket.gain now) bucket.maxTokens := by
  unfold refill gain
  dsimp only
  split_ifs with h
  · rw [min_eq_right h.le]
  · rw [min_eq_left (not_lt.mp h)]

theorem refill_tokens_le (bucket : TokenBucket) (now : Int) :
    (bucket.refill now).tokens ≤ bucket.maxTokens := by
  rw [refill_tokens]
  exact min_le_right _ _

theorem gain_nonneg (hrate : 0 ≤ bucket.refillRate) (hnow : bucket.lastRefill ≤ now) :
    0 ≤ bucket.gain now := by
  have helapsed : (0 : ℚ) ≤ milliseconds (now - bucket.lastRefill) := by
    exact_mod_cast milliseconds_nonneg (by omega)
  exact mul_nonneg (div_nonneg helapsed (by norm_num)) hrate

theorem gain_le (hrate : 0 ≤ bucket.refillRate) (hnow : bucket.lastRefill ≤ now) :
    bucket.gain now ≤ bucket.refillRate * ((now - bucket.lastRefill) / 1000000000) := by
  have hle := milliseconds_le (show 0 ≤ now - bucket.lastRefill by omega)
  rw [Int.cast_sub] at hle
  calc bucket.gain now
      ≤ (now - bucket.lastRefill) / 1000000000 * bucket.refillRate :=
        mul_le_mul_of_nonneg_right hle hrate
    _ = bucket.refillRate * ((now - bucket.lastRefill) / 1000000000) := mul_comm _ _

/-- A request changes the tokens and the time of the last refill. -/
theorem request_frame (bucket : TokenBucket) (now : Int) :
    (bucket.request now).2.lastRefill = now ∧
      (bucket.request now).2.refillRate = bucket.refillRate ∧
      (bucket.request now).2.maxTokens = bucket.maxTokens := by
  unfold request take
  split_ifs <;> exact ⟨rfl, rfl, rfl⟩

/-- A request is allowed if a token is there after the refill, which it then takes. -/
theorem request_allowed (h : 1 ≤ (bucket.refill now).tokens) :
    (bucket.request now).1 = true ∧
      (bucket.request now).2.tokens = (bucket.refill now).tokens - 1 := by
  rw [request, take, if_pos h]
  exact ⟨rfl, rfl⟩

theorem request_denied (h : (bucket.refill now).tokens < 1) :
    bucket.request now = (false, bucket.refill now) := by
  rw [request, take, if_neg (not_le.mpr h)]

end TokenBucket

end McpToolkit
