import McpToolkit.Rate.Bound
import Mathlib.Algebra.Order.Archimedean.Basic
/-!
# Asking too often

A refill counts whole milliseconds only, and the next one starts from the instant of
the call.  A call that is denied therefore loses the fraction of a millisecond that
had passed, and a later call can miss the token that it would have got.
-/

namespace McpToolkit

namespace TokenBucket

variable {bucket : TokenBucket} {now x y : Int}

/-- The answers to requests at the given times. -/
def answers : TokenBucket → List Int → List Bool
  | _, [] => []
  | bucket, now :: later => (bucket.request now).1 :: (bucket.request now).2.answers later

/-- What was let through still is. -/
abbrev Keeps : List Bool → List Bool → Prop :=
  List.Forall₂ fun before after => before = true → after = true

/-! ## Buckets that stay empty -/

/-- No time will bring a token. -/
def Dry (bucket : TokenBucket) : Prop :=
  bucket.maxTokens < 1 ∨ bucket.refillRate = 0 ∧ bucket.tokens < 1

theorem Dry.refill_tokens_lt (h : bucket.Dry) (now : Int) : (bucket.refill now).tokens < 1 := by
  rw [refill_tokens]
  rcases h with hmax | ⟨hrate, htokens⟩
  · exact (min_le_right _ _).trans_lt hmax
  · rw [gain, hrate, mul_zero, add_zero]
    exact (min_le_left _ _).trans_lt htokens

theorem Dry.request (h : bucket.Dry) (now : Int) :
    (bucket.request now).1 = false ∧ (bucket.request now).2.Dry := by
  have hlt := h.refill_tokens_lt now
  rw [request_denied hlt]
  refine ⟨rfl, ?_⟩
  rcases h with hmax | ⟨hrate, -⟩
  · exact .inl hmax
  · exact .inr ⟨hrate, hlt⟩

theorem Dry.keeps (h : bucket.Dry) (other : TokenBucket) (later : List Int) :
    Keeps (bucket.answers later) (other.answers later) := by
  induction later generalizing bucket other with
  | nil => exact .nil
  | cons now later ih =>
      obtain ⟨hdenied, hdry⟩ := h.request now
      refine .cons (fun hallowed => ?_) (ih hdry _)
      rw [hdenied] at hallowed
      cases hallowed

/-! ## Two refills for one -/

theorem milliseconds_eq {d : Int} (hd : 0 ≤ d) : milliseconds d = d / 1000000 :=
  Int.tdiv_eq_ediv_of_nonneg hd

/-- After whole milliseconds nothing is lost. -/
theorem refill_refill (hrate : 0 ≤ bucket.refillRate) (hx : bucket.lastRefill ≤ x) (hy : x ≤ y)
    (hwhole : 1000000 ∣ x - bucket.lastRefill) : (bucket.refill x).refill y = bucket.refill y := by
  have hsum : milliseconds (y - bucket.lastRefill) =
      milliseconds (x - bucket.lastRefill) + milliseconds (y - x) := by
    rw [milliseconds_eq (by omega), milliseconds_eq (by omega), milliseconds_eq (by omega)]
    omega
  have hgain : bucket.gain y = bucket.gain x + (bucket.refill x).gain y := by
    change milliseconds (y - bucket.lastRefill) / 1000 * bucket.refillRate = _
    rw [hsum, Int.cast_add, add_div, add_mul]
    rfl
  have htokens : ((bucket.refill x).refill y).tokens = (bucket.refill y).tokens := by
    have hnonneg : 0 ≤ (bucket.refill x).gain y := gain_nonneg hrate hy
    rw [refill_tokens, refill_tokens, refill_tokens, hgain, ← add_assoc]
    change min (min _ bucket.maxTokens + _) bucket.maxTokens = _
    rcases le_total (bucket.tokens + bucket.gain x) bucket.maxTokens with hle | hle
    · rw [min_eq_left hle]
    · rw [min_eq_right hle, min_eq_right (by linarith), min_eq_right (by linarith)]
  calc (bucket.refill x).refill y
      = ⟨((bucket.refill x).refill y).tokens, y, bucket.refillRate, bucket.maxTokens⟩ := rfl
    _ = ⟨(bucket.refill y).tokens, y, bucket.refillRate, bucket.maxTokens⟩ := by rw [htokens]
    _ = bucket.refill y := rfl

/-- If a fraction is lost there is a call that would have been let through. -/
theorem exists_lost (hrate : 0 < bucket.refillRate) (hmax : 1 ≤ bucket.maxTokens)
    (hx : bucket.lastRefill ≤ x) (hdenied : (bucket.refill x).tokens < 1)
    (hfraction : ¬ 1000000 ∣ x - bucket.lastRefill) :
    ∃ y, x ≤ y ∧ (bucket.request y).1 = true ∧ ((bucket.refill x).request y).1 = false := by
  -- the first number of milliseconds that is enough
  have henough : ∃ e : Nat, 1 ≤ bucket.tokens + e / 1000 * bucket.refillRate := by
    obtain ⟨e, he⟩ := exists_nat_ge ((1 - bucket.tokens) * 1000 / bucket.refillRate)
    rw [div_le_iff₀ hrate] at he
    exact ⟨e, by linarith⟩
  have hspec := Nat.find_spec henough
  have hmin := fun n hn => not_le.mp (@Nat.find_min _ _ henough n hn)
  generalize Nat.find henough = e at hspec hmin
  have hbefore : bucket.tokens + bucket.gain x < 1 := by
    rw [refill_tokens] at hdenied
    exact (min_lt_iff.mp hdenied).resolve_right hmax.not_gt
  have hlater : milliseconds (x - bucket.lastRefill) < e := by
    by_contra hle
    have hcast : (e : ℚ) ≤ milliseconds (x - bucket.lastRefill) := by
      exact_mod_cast not_lt.mp hle
    have hscaled : (e : ℚ) / 1000 * bucket.refillRate ≤ bucket.gain x :=
      mul_le_mul_of_nonneg_right (by linarith) hrate.le
    linarith
  have hnonneg := milliseconds_nonneg (show 0 ≤ x - bucket.lastRefill by omega)
  have hx' : x ≤ bucket.lastRefill + e * 1000000 := by
    rw [milliseconds_eq (by omega)] at hlater
    omega
  refine ⟨bucket.lastRefill + e * 1000000, hx', ?_, ?_⟩
  · refine (request_allowed ?_).1
    have hall : milliseconds (bucket.lastRefill + e * 1000000 - bucket.lastRefill) = e := by
      rw [milliseconds_eq (by omega)]
      omega
    rw [refill_tokens, gain, hall, Int.cast_natCast]
    exact le_min hspec hmax
  · -- the two refills together count one millisecond less
    have hlost : milliseconds (bucket.lastRefill + e * 1000000 - x) +
        milliseconds (x - bucket.lastRefill) = (e - 1 : Nat) := by
      rw [milliseconds_eq (by omega), milliseconds_eq (by omega)] at *
      omega
    have hgain : (bucket.refill x).gain (bucket.lastRefill + e * 1000000) + bucket.gain x =
        (e - 1 : Nat) / 1000 * bucket.refillRate := by
      rw [← Int.cast_natCast (e - 1), ← hlost, Int.cast_add, add_div, add_mul]
      rfl
    have hfewer := hmin (e - 1) (by omega)
    have hlt : ((bucket.refill x).refill (bucket.lastRefill + e * 1000000)).tokens < 1 := by
      rw [refill_tokens]
      refine (min_le_left _ _).trans_lt ?_
      rw [refill_tokens]
      have hle := min_le_left (bucket.tokens + bucket.gain x) bucket.maxTokens
      linarith
    rw [request_denied hlt]

/-- What is let through stays so exactly if nothing is lost. -/
theorem keeps_iff (hrate : 0 ≤ bucket.refillRate) (hx : bucket.lastRefill ≤ x)
    (hdenied : (bucket.refill x).tokens < 1) :
    (∀ later, (x :: later).Pairwise (· ≤ ·) →
        Keeps (bucket.answers later) ((bucket.refill x).answers later)) ↔
      bucket.refillRate = 0 ∨ bucket.maxTokens < 1 ∨ 1000000 ∣ x - bucket.lastRefill := by
  constructor
  · intro h
    by_contra hlost
    rw [not_or, not_or, not_lt] at hlost
    obtain ⟨hzero, hmax, hfraction⟩ := hlost
    obtain ⟨y, hy, hallowed, hmissed⟩ :=
      exists_lost (lt_of_le_of_ne hrate (Ne.symm hzero)) hmax hx hdenied hfraction
    have hkeeps := h [y] (by simp [hy])
    unfold answers at hkeeps
    cases hkeeps with
    | cons himp _ =>
        rw [hmissed] at himp
        cases himp hallowed
  · rintro (hzero | hmax | hwhole) later hlater
    · rw [refill_tokens, gain, hzero, mul_zero, add_zero, min_lt_iff] at hdenied
      have hdry : bucket.Dry := hdenied.symm.imp_right fun htokens => ⟨hzero, htokens⟩
      exact hdry.keeps _ later
    · exact Dry.keeps (.inl hmax) _ later
    · cases later with
      | nil => exact .nil
      | cons y later =>
          have hy : x ≤ y := (List.pairwise_cons.mp hlater).1 y List.mem_cons_self
          have hsame : (bucket.refill x).request y = bucket.request y := by
            rw [request, request, refill_refill hrate hx hy hwhole]
          unfold answers
          rw [hsame]
          exact List.forall₂_same.mpr fun _ _ h => h

theorem answers_of_close {later : List Int} (hempty : bucket.tokens < 1)
    (hclose : (bucket.lastRefill :: later).IsChain fun now next =>
      now ≤ next ∧ next < now + 1000000) :
    ∀ allowed ∈ bucket.answers later, allowed = false := by
  induction later generalizing bucket with
  | nil => exact List.forall_mem_nil _
  | cons now later ih =>
      obtain ⟨⟨hle, hlt⟩, hclose⟩ := List.isChain_cons_cons.mp hclose
      have hnone : bucket.gain now = 0 := by
        have hzero : milliseconds (now - bucket.lastRefill) = 0 := by
          rw [milliseconds_eq (by omega)]
          omega
        rw [gain, hzero, Int.cast_zero, zero_div, zero_mul]
      have hstill : (bucket.refill now).tokens < 1 := by
        rw [refill_tokens, hnone, add_zero]
        exact (min_le_left _ _).trans_lt hempty
      unfold answers
      rw [request_denied hstill]
      exact List.forall_mem_cons.mpr ⟨rfl, ih hstill hclose⟩

/-- After a denial, a client that never waits for a whole millisecond gets nothing, however
long it asks. -/
theorem starved {later : List Int} (hdenied : (bucket.request x).1 = false)
    (hclose : (x :: later).IsChain fun now next => now ≤ next ∧ next < now + 1000000) :
    ∀ allowed ∈ (bucket.request x).2.answers later, allowed = false := by
  have hempty : (bucket.refill x).tokens < 1 := by
    by_contra hone
    rw [(request_allowed (not_lt.mp hone)).1] at hdenied
    cases hdenied
  rw [request_denied hempty]
  exact answers_of_close hempty hclose

end TokenBucket

namespace RateLimiter

variable {l : RateLimiter} {past : List RateRecord} {clientId : Bytes} {x : Int}

/-- The answers to requests of a client at the given times. -/
def answers (clientId : Bytes) : RateLimiter → List Int → List Bool
  | _, [] => []
  | l, now :: later =>
      (l.allowRequest clientId now).1 :: answers clientId (l.allowRequest clientId now).2 later

theorem answers_eq {bucket : TokenBucket} (h : l.buckets.lookup clientId = some bucket)
    (later : List Int) : answers clientId l later = bucket.answers later := by
  induction later generalizing l bucket with
  | nil => rfl
  | cons now later ih =>
      have hat : l.bucketAt clientId now = bucket := by rw [bucketAt, h]; rfl
      have hnext := ih (lookup_allowRequest (l := l) now)
      rw [hat] at hnext
      unfold answers TokenBucket.answers
      rw [← hnext, ← hat]
      rfl

theorem answers_cons (now : Int) (later : List Int) :
    answers clientId l (now :: later) = (l.bucketAt clientId now).answers (now :: later) := by
  unfold answers TokenBucket.answers
  rw [← answers_eq (lookup_allowRequest (l := l) now)]
  rfl

end RateLimiter

open TokenBucket RateLimiter

/-- A call that is denied takes nothing from later ones exactly if the bucket gains nothing, if
it can hold no token, or if whole milliseconds had passed since its last refill. -/
theorem polling_iff {past : List RateRecord} {l : RateLimiter} (h : RateRuns past l) {x : Int}
    (hx : ∀ e ∈ past, e.1.now ≤ x) (clientId : Bytes)
    (hrate : 0 ≤ (l.bucketAt clientId x).refillRate)
    (hdenied : (l.allowRequest clientId x).1 = false) :
    (∀ later, (x :: later).Pairwise (· ≤ ·) →
        Keeps (answers clientId l later) (answers clientId (l.allowRequest clientId x).2 later)) ↔
      (l.bucketAt clientId x).refillRate = 0 ∨ (l.bucketAt clientId x).maxTokens < 1 ∨
        1000000 ∣ x - (l.bucketAt clientId x).lastRefill := by
  have hlast : (l.bucketAt clientId x).lastRefill ≤ x := (bucketAt_level h hx).refilled
  have hempty : ((l.bucketAt clientId x).refill x).tokens < 1 := by
    by_contra hone
    have hallowed : (l.allowRequest clientId x).1 = true := (request_allowed (not_lt.mp hone)).1
    rw [hallowed] at hdenied
    cases hdenied
  have hafter : ∀ later, answers clientId (l.allowRequest clientId x).2 later =
      ((l.bucketAt clientId x).refill x).answers later := by
    intro later
    have hlookup : (l.allowRequest clientId x).2.buckets.lookup clientId =
        some ((l.bucketAt clientId x).request x).2 := lookup_allowRequest x
    rw [request_denied hempty] at hlookup
    exact answers_eq hlookup later
  simp only [hafter]
  cases hlookup : l.buckets.lookup clientId with
  | none =>
      -- a new bucket is full, so a request is denied only if no token fits in
      have hat : ∀ now, l.bucketAt clientId now =
          .new now l.defaultRefillRate l.defaultMaxTokens := by
        intro now
        rw [bucketAt, hlookup]
        rfl
      have hmax : l.defaultMaxTokens < 1 := by
        rw [hat, refill_tokens, gain] at hempty
        simpa [TokenBucket.new, milliseconds] using hempty
      rw [hat]
      refine iff_of_true (fun later _ => ?_) (.inr (.inl hmax))
      cases later with
      | nil => exact .nil
      | cons now later =>
          rw [answers_cons, hat]
          exact Dry.keeps (.inl hmax) _ _
  | some bucket =>
      have hat : l.bucketAt clientId x = bucket := by rw [bucketAt, hlookup]; rfl
      simp only [answers_eq hlookup]
      rw [hat] at hrate hlast hempty ⊢
      exact keeps_iff hrate hlast hempty

/-- With rate 1000 and burst 1, a client takes its only token at once. -/
def emptyPast : List RateRecord :=
  [(⟨0, .configure 1000 1⟩, false), (⟨0, .allowRequest []⟩, true)]

theorem runs_emptyPast : RateRuns emptyPast (lone ⟨0, 0, 1000, 1⟩ 1000 1) := by
  have hconfigured : RateRuns [(⟨0, .configure 1000 1⟩, false)]
      { defaultRefillRate := 1000, defaultMaxTokens := (1 : Nat) } :=
    Machine.Runs.start.extend (List.forall_mem_nil _) rfl
  exact runs_lone hconfigured _ _ _ _ _ (by simp) (by decide +kernel) (by decide +kernel)

theorem polling_iff_of_empty :
    Keeps (answers [] (lone ⟨0, 0, 1000, 1⟩ 1000 1) [1000000])
      (answers [] ((lone ⟨0, 0, 1000, 1⟩ 1000 1).allowRequest [] 0).2 [1000000]) :=
  (polling_iff runs_emptyPast (by decide) [] (by decide +kernel) (by decide +kernel)).mpr
    (.inr (.inr (by decide +kernel))) [1000000] (by decide)

/-- A call after half a millisecond keeps the client from its token after a whole one. -/
theorem polling_loses :
    ∃ past l x later, RateRuns past l ∧ (∀ e ∈ past, e.1.now ≤ x) ∧
      0 ≤ (l.bucketAt [] x).refillRate ∧ (l.allowRequest [] x).1 = false ∧
      (x :: later).Pairwise (· ≤ ·) ∧
      ¬ Keeps (answers [] l later) (answers [] (l.allowRequest [] x).2 later) := by
  refine ⟨emptyPast, _, 500000, [1000000], runs_emptyPast, by decide, by decide +kernel,
    by decide +kernel, by decide, fun hkeeps => ?_⟩
  have hbefore : answers [] (lone ⟨0, 0, 1000, 1⟩ 1000 1) [1000000] = [true] := by decide +kernel
  have hafter : answers [] ((lone ⟨0, 0, 1000, 1⟩ 1000 1).allowRequest [] 500000).2 [1000000] =
      [false] := by decide +kernel
  rw [hbefore, hafter] at hkeeps
  cases hkeeps with
  | cons himp _ => cases himp rfl

end McpToolkit
