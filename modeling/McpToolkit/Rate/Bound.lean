import McpToolkit.Base.Runs
import McpToolkit.Rate.Limiter
import Mathlib.Data.Finset.Dedup
import Mathlib.Data.Finset.Order
import Mathlib.Tactic.Ring
/-!
# How many requests are let through

The tokens of a bucket pay for the requests that it lets through: with the tokens
that are left they never exceed the burst and what the time has brought in.
-/

namespace McpToolkit

/-- A call and its answer. -/
abbrev RateRecord := RateCall × Bool

/-- The client whose bucket a call is about. -/
def RateOp.client? : RateOp → Option Bytes
  | .configure _ _ => none
  | .allowRequest clientId => some clientId
  | .setRate clientId _ => some clientId
  | .setBurst clientId _ => some clientId
  | .resetClient clientId => some clientId

/-- Time does not run backwards. -/
def Timely (past : List RateRecord) (_ : RateLimiter) (c : RateCall) : Prop :=
  ∀ e ∈ past, e.1.now ≤ c.now

/-- The limiter after calls in the order of time. -/
abbrev RateRuns : List RateRecord → RateLimiter → Prop :=
  Machine.Runs RateLimiter.step Timely {}

/-- A request of the client that was let through. -/
def admits (clientId : Bytes) (e : RateRecord) : Bool := e.1.op = .allowRequest clientId && e.2

namespace RateLimiter

variable {l : RateLimiter} {c : RateCall} {clientId : Bytes}

/-! ## One call -/

theorem setRate_eq (l : RateLimiter) (clientId : Bytes) (rps : ℚ) (now : Int) :
    l.setRate clientId rps now = { l with
      buckets := l.buckets.insert clientId { l.bucketAt clientId now with refillRate := rps } } := by
  unfold setRate bucketAt
  cases l.buckets.lookup clientId <;> rfl

theorem setBurst_some {bucket : TokenBucket} (h : l.buckets.lookup clientId = some bucket)
    (burst : Nat) (now : Int) : l.setBurst clientId burst now = { l with
      buckets := l.buckets.insert clientId
        { bucket with maxTokens := burst, tokens := min bucket.tokens burst } } := by
  have hmin : (if bucket.tokens > burst then (burst : ℚ) else bucket.tokens) =
      min bucket.tokens burst := by
    split_ifs with hb
    · rw [min_eq_right hb.le]
    · rw [min_eq_left (not_lt.mp hb)]
  unfold setBurst
  rw [h]
  dsimp only
  rw [hmin]

/-- Calls for other clients leave a bucket alone. -/
theorem lookup_step (h : c.op.client? ≠ some clientId) :
    (l.step c).2.buckets.lookup clientId = l.buckets.lookup clientId := by
  have hinsert : ∀ {d : Bytes} {bucket : TokenBucket}, some d ≠ some clientId →
      (l.buckets.insert d bucket).lookup clientId = l.buckets.lookup clientId := by
    intro d bucket hd
    rw [Table.lookup_insert_eq, if_neg]
    rintro rfl
    exact hd rfl
  obtain ⟨now, op⟩ := c
  cases op with
  | configure rps burst => rfl
  | allowRequest d => exact hinsert h
  | setRate d rps =>
      unfold step
      dsimp only
      rw [setRate_eq]
      exact hinsert h
  | setBurst d burst =>
      unfold step setBurst
      dsimp only
      cases l.buckets.lookup d <;> exact hinsert h
  | resetClient d =>
      change (l.buckets.erase d).lookup clientId = _
      rw [Table.lookup_erase_eq, if_neg]
      rintro rfl
      exact h rfl

theorem lookup_allowRequest (now : Int) :
    (l.step ⟨now, .allowRequest clientId⟩).2.buckets.lookup clientId =
      some ((l.bucketAt clientId now).request now).2 := by
  unfold step allowRequest
  dsimp only
  rw [AList.lookup_insert]

theorem bucketAt_of {P : TokenBucket → Prop} {now : Int}
    (hnew : P (.new now l.defaultRefillRate l.defaultMaxTokens))
    (hold : ∀ bucket, l.buckets.lookup clientId = some bucket → P bucket) :
    P (l.bucketAt clientId now) := by
  unfold bucketAt
  cases hlookup : l.buckets.lookup clientId with
  | none => exact hnew
  | some bucket => exact hold bucket hlookup

/-- Where the bucket of a client after a call can come from. -/
inductive Touched (l : RateLimiter) (clientId : Bytes) : RateCall → TokenBucket → Prop where
  | kept {c : RateCall} {bucket : TokenBucket} : l.buckets.lookup clientId = some bucket →
      Touched l clientId c bucket
  | requested {now : Int} : Touched l clientId ⟨now, .allowRequest clientId⟩
      ((l.bucketAt clientId now).request now).2
  | rated {now : Int} {rps : ℚ} : Touched l clientId ⟨now, .setRate clientId rps⟩
      { l.bucketAt clientId now with refillRate := rps }
  | opened {now : Int} {burst : Nat} : Touched l clientId ⟨now, .setBurst clientId burst⟩
      (.new now l.defaultRefillRate burst)
  | capped {now : Int} {burst : Nat} {bucket : TokenBucket} :
      l.buckets.lookup clientId = some bucket → Touched l clientId ⟨now, .setBurst clientId burst⟩
        { bucket with maxTokens := burst, tokens := min bucket.tokens burst }

theorem touched_of_step {bucket : TokenBucket}
    (h : (l.step c).2.buckets.lookup clientId = some bucket) : l.Touched clientId c bucket := by
  by_cases hclient : c.op.client? = some clientId
  · obtain ⟨now, op⟩ := c
    cases op with
    | configure rps burst => cases hclient
    | allowRequest d =>
        cases hclient
        rw [lookup_allowRequest] at h
        cases h
        exact .requested
    | setRate d rps =>
        cases hclient
        unfold step at h
        dsimp only at h
        rw [setRate_eq, AList.lookup_insert] at h
        cases h
        exact .rated
    | setBurst d burst =>
        cases hclient
        unfold step at h
        dsimp only at h
        cases hlookup : l.buckets.lookup clientId with
        | none =>
            unfold setBurst at h
            rw [hlookup] at h
            dsimp only at h
            rw [AList.lookup_insert] at h
            cases h
            exact .opened
        | some b =>
            rw [setBurst_some hlookup, AList.lookup_insert] at h
            cases h
            exact .capped hlookup
    | resetClient d =>
        cases hclient
        change (l.buckets.erase clientId).lookup clientId = some bucket at h
        rw [AList.lookup_erase] at h
        cases h
  · rw [lookup_step hclient] at h
    exact .kept h

end RateLimiter

/-! ## Every state -/

/-- What is true of a bucket at a time after the last refill. -/
structure TokenBucket.Level (bucket : TokenBucket) (now : Int) : Prop where
  maxTokens_nonneg : 0 ≤ bucket.maxTokens
  tokens_le : bucket.tokens ≤ bucket.maxTokens
  refilled : bucket.lastRefill ≤ now

namespace TokenBucket

variable {bucket : TokenBucket} {now : Int}

theorem Level.new {rate burst : ℚ} (hburst : 0 ≤ burst) : (TokenBucket.new now rate burst).Level now :=
  ⟨hburst, le_refl burst, le_refl now⟩

theorem Level.mono {later : Int} (h : bucket.Level now) (hlater : now ≤ later) :
    bucket.Level later :=
  ⟨h.maxTokens_nonneg, h.tokens_le, h.refilled.trans hlater⟩

/-- A request leaves what the refill has given, or one token less. -/
theorem request_tokens (bucket : TokenBucket) (now : Int) :
    (bucket.request now).1 = true ∧ 1 ≤ (bucket.refill now).tokens ∧
        (bucket.request now).2.tokens = (bucket.refill now).tokens - 1 ∨
      (bucket.request now).1 = false ∧
        (bucket.request now).2.tokens = (bucket.refill now).tokens := by
  by_cases h : 1 ≤ (bucket.refill now).tokens
  · obtain ⟨hallowed, htokens⟩ := request_allowed h
    exact .inl ⟨hallowed, h, htokens⟩
  · rw [request_denied (not_le.mp h)]
    exact .inr ⟨rfl, rfl⟩

theorem Level.request (h : bucket.Level now) : (bucket.request now).2.Level now := by
  obtain ⟨hlast, -, hmax⟩ := request_frame bucket now
  have hle := refill_tokens_le bucket now
  refine ⟨?_, ?_, hlast.le⟩
  · rw [hmax]
    exact h.maxTokens_nonneg
  · rw [hmax]
    rcases request_tokens bucket now with ⟨-, -, htokens⟩ | ⟨-, htokens⟩ <;> linarith

/-- With a rate that is not negative, tokens do not become negative. -/
theorem request_tokens_nonneg (h : bucket.Level now) (hrate : 0 ≤ bucket.refillRate)
    (htokens : 0 ≤ bucket.tokens) : 0 ≤ (bucket.request now).2.tokens := by
  have hrefill : 0 ≤ (bucket.refill now).tokens := by
    rw [refill_tokens]
    exact le_min (add_nonneg htokens (gain_nonneg hrate h.refilled)) h.maxTokens_nonneg
  rcases request_tokens bucket now with ⟨-, hone, htokens⟩ | ⟨-, htokens⟩ <;> linarith

end TokenBucket

namespace RateLimiter

variable {l : RateLimiter} {past : List RateRecord} {clientId : Bytes} {bucket : TokenBucket}
variable {now : Int}

theorem defaultMaxTokens_nonneg (h : RateRuns past l) : 0 ≤ l.defaultMaxTokens := by
  induction h with
  | start => norm_num
  | @next past l c _ _ ih =>
      obtain ⟨now, op⟩ := c
      cases op with
      | configure rps burst => exact Nat.cast_nonneg burst
      | allowRequest d => exact ih
      | setRate d rps =>
          unfold step setRate
          dsimp only
          cases l.buckets.lookup d <;> exact ih
      | setBurst d burst =>
          unfold step setBurst
          dsimp only
          cases l.buckets.lookup d <;> exact ih
      | resetClient d => exact ih

/-- In every state the tokens of a bucket are within its burst. -/
theorem level_of_runs (h : RateRuns past l) (hnow : ∀ e ∈ past, e.1.now ≤ now)
    (hlookup : l.buckets.lookup clientId = some bucket) : bucket.Level now := by
  induction h generalizing now bucket with
  | start => cases hlookup
  | @next past l c hrun hallows ih =>
      have hlater : c.now ≤ now := hnow _ (List.mem_append_right past (List.mem_singleton_self _))
      refine TokenBucket.Level.mono ?_ hlater
      have hat : (l.bucketAt clientId c.now).Level c.now :=
        bucketAt_of (.new (defaultMaxTokens_nonneg hrun)) fun b hb => ih hallows hb
      cases touched_of_step hlookup with
      | kept hbefore => exact ih hallows hbefore
      | requested => exact hat.request
      | rated => exact ⟨hat.maxTokens_nonneg, hat.tokens_le, hat.refilled⟩
      | opened => exact .new (Nat.cast_nonneg _)
      | capped hbefore =>
          exact ⟨Nat.cast_nonneg _, min_le_right _ _, (ih hallows hbefore).refilled⟩

/-- There is a time that no call of a run is later than. -/
theorem exists_end (past : List RateRecord) : ∃ now, ∀ e ∈ past, e.1.now ≤ now := by
  obtain ⟨now, hnow⟩ := (past.map fun e => e.1.now).toFinset.exists_le
  exact ⟨now, fun e he => hnow _ (List.mem_toFinset.mpr (List.mem_map_of_mem he))⟩

theorem bucketAt_level (h : RateRuns past l) (hnow : ∀ e ∈ past, e.1.now ≤ now) :
    (l.bucketAt clientId now).Level now :=
  bucketAt_of (.new (defaultMaxTokens_nonneg h)) fun _ hb => level_of_runs h hnow hb

/-- A new rate is not set for the client where the old one is negative. -/
def KeepsRate (clientId : Bytes) (l : RateLimiter) (c : RateCall) : Prop :=
  ∀ rps bucket, c.op = .setRate clientId rps → l.buckets.lookup clientId = some bucket →
    0 ≤ bucket.refillRate

theorem tokens_nonneg_of_runs (h : RateRuns past l)
    (hkeeps : Machine.Everywhere step {} (KeepsRate clientId) past)
    (hlookup : l.buckets.lookup clientId = some bucket) (hrate : 0 ≤ bucket.refillRate) :
    0 ≤ bucket.tokens := by
  induction h generalizing bucket with
  | start => cases hlookup
  | @next past l c hrun hallows ih =>
      have hbefore : ∀ b, l.buckets.lookup clientId = some b → 0 ≤ b.refillRate → 0 ≤ b.tokens :=
        fun b hb hr => ih hkeeps.of_append hb hr
      have hdefault := defaultMaxTokens_nonneg hrun
      cases touched_of_step hlookup with
      | kept hl => exact hbefore bucket hl hrate
      | @requested now =>
          have hat : 0 ≤ (l.bucketAt clientId now).refillRate →
              0 ≤ (l.bucketAt clientId now).tokens :=
            bucketAt_of (fun _ => hdefault) hbefore
          rw [(TokenBucket.request_frame _ _).2.1] at hrate
          exact TokenBucket.request_tokens_nonneg (bucketAt_level hrun hallows) hrate (hat hrate)
      | @rated now rps =>
          -- the rate before, which the tokens depend on, is not the one after
          have hold : ∀ b, l.buckets.lookup clientId = some b → 0 ≤ b.refillRate :=
            fun b hb => hkeeps past _ _ l (List.prefix_refl _) hrun.free rps b rfl hb
          exact bucketAt_of hdefault fun b hb => hbefore b hb (hold b hb)
      | opened => exact Nat.cast_nonneg _
      | capped hl => exact le_min (hbefore _ hl hrate) (Nat.cast_nonneg _)

end RateLimiter

/-! ## Any interval -/

/-- Requests let through since `t₀`, and the tokens left, are paid for by the burst and by
what the rate has brought in since then. -/
structure TokenBucket.Paid (bucket : TokenBucket) (t₀ : Int) (count : Nat) : Prop where
  started : t₀ ≤ bucket.lastRefill
  tokens_nonneg : 0 ≤ bucket.tokens
  spent : count + bucket.tokens ≤
    bucket.maxTokens + bucket.refillRate * ((bucket.lastRefill - t₀) / 1000000000)

namespace TokenBucket

variable {bucket : TokenBucket} {now t₀ : Int} {count : Nat}

/-- The first request let through is paid for by the burst. -/
theorem paid_first (hrate : 0 ≤ bucket.refillRate) (hstart : t₀ ≤ now)
    (hallowed : (bucket.request now).1 = true) : (bucket.request now).2.Paid t₀ 1 := by
  obtain ⟨hlast, hr, hm⟩ := request_frame bucket now
  have hle := refill_tokens_le bucket now
  have hpast : (0 : ℚ) ≤ (now - t₀) / 1000000000 := by
    have hcast : (t₀ : ℚ) ≤ now := by exact_mod_cast hstart
    exact div_nonneg (sub_nonneg.mpr hcast) (by norm_num)
  have hbrought := mul_nonneg hrate hpast
  rcases request_tokens bucket now with ⟨-, hone, htokens⟩ | ⟨hdenied, -⟩
  · refine ⟨hstart.trans hlast.ge, by linarith, ?_⟩
    rw [hlast, hr, hm, htokens, Nat.cast_one]
    linarith
  · rw [hdenied] at hallowed
    cases hallowed

/-- Each request is paid for by what is there and by what the refill brings in. -/
theorem Paid.request (h : bucket.Paid t₀ count) (hlevel : bucket.Level now)
    (hrate : 0 ≤ bucket.refillRate) :
    (bucket.request now).2.Paid t₀ (count + (bucket.request now).1.toNat) := by
  obtain ⟨hlast, hr, hm⟩ := request_frame bucket now
  have hgain : (bucket.refill now).tokens ≤
      bucket.tokens + bucket.refillRate * ((now - bucket.lastRefill) / 1000000000) := by
    have hle := gain_le hrate hlevel.refilled
    have hmin := min_le_left (bucket.tokens + bucket.gain now) bucket.maxTokens
    rw [← refill_tokens] at hmin
    linarith
  have hsplit : bucket.refillRate * (((now : ℚ) - t₀) / 1000000000) =
      bucket.refillRate * ((bucket.lastRefill - t₀) / 1000000000) +
        bucket.refillRate * ((now - bucket.lastRefill) / 1000000000) := by
    ring
  have hspent := h.spent
  refine ⟨h.started.trans (hlevel.refilled.trans hlast.ge),
    request_tokens_nonneg hlevel hrate h.tokens_nonneg, ?_⟩
  rw [hlast, hr, hm, hsplit]
  rcases request_tokens bucket now with ⟨hallowed, -, htokens⟩ | ⟨hdenied, htokens⟩
  · rw [hallowed, htokens, Bool.toNat_true, Nat.cast_add, Nat.cast_one]
    linarith
  · rw [hdenied, htokens, Bool.toNat_false, Nat.add_zero]
    linarith

end TokenBucket

/-- Of the calls about a client, only its requests. -/
def RateOp.Spares (op : RateOp) (clientId : Bytes) : Prop :=
  op.client? = some clientId → op = .allowRequest clientId

namespace RateLimiter

variable {l : RateLimiter} {before inside : List RateRecord} {clientId : Bytes} {t₀ : Int}

theorem paid_of_runs (h : RateRuns (before ++ inside) l)
    (hspares : ∀ e ∈ inside, e.1.op.Spares clientId) (hstart : ∀ e ∈ inside, t₀ ≤ e.1.now) :
    inside.countP (admits clientId) = 0 ∨
      ∃ bucket, l.buckets.lookup clientId = some bucket ∧
        (0 ≤ bucket.refillRate → bucket.Paid t₀ (inside.countP (admits clientId))) := by
  induction inside using List.reverseRecOn generalizing l with
  | nil => exact .inl rfl
  | append_singleton inside e ih =>
      obtain ⟨c, o⟩ := e
      rw [← List.append_assoc] at h
      obtain ⟨l, hrun, hallows, rfl, rfl⟩ := h.last
      have hbefore := ih hrun (fun e he => hspares e (List.mem_append_left _ he))
        fun e he => hstart e (List.mem_append_left _ he)
      have hmem := List.mem_append_right inside (List.mem_singleton_self (c, (l.step c).1))
      rw [List.countP_append, List.countP_singleton]
      by_cases hclient : c.op.client? = some clientId
      · obtain ⟨now, op⟩ := c
        cases hspares _ hmem hclient
        have hadmits : admits clientId (⟨now, .allowRequest clientId⟩,
            (l.step ⟨now, .allowRequest clientId⟩).1) =
              ((l.bucketAt clientId now).request now).1 := by
          simp only [admits, decide_true, Bool.true_and]
          rfl
        rw [hadmits, lookup_allowRequest]
        have hrefillRate := (TokenBucket.request_frame (l.bucketAt clientId now) now).2.1
        rcases hbefore with hzero | ⟨bucket, hlookup, hpaid⟩
        · -- nothing was let through before
          rw [hzero]
          cases hallowed : ((l.bucketAt clientId now).request now).1 with
          | false => exact .inl rfl
          | true =>
              refine .inr ⟨_, rfl, fun hrate => ?_⟩
              rw [hrefillRate] at hrate
              exact TokenBucket.paid_first hrate (hstart _ hmem) hallowed
        · have hat : l.bucketAt clientId now = bucket := by rw [bucketAt, hlookup]; rfl
          rw [hat] at hrefillRate ⊢
          refine .inr ⟨_, rfl, fun hrate => ?_⟩
          rw [hrefillRate] at hrate
          have hnext := (hpaid hrate).request (level_of_runs hrun hallows hlookup) hrate
          cases hallowed : (bucket.request now).1 <;> rw [hallowed] at hnext <;> exact hnext
      · have hadmits : admits clientId (c, (l.step c).1) = false := by
          have hop : c.op ≠ .allowRequest clientId := fun hop => hclient (by rw [hop]; rfl)
          rw [admits, decide_eq_false hop, Bool.false_and]
        rw [hadmits, lookup_step hclient]
        exact hbefore

theorem now_le_of_runs {e e' : RateRecord} (h : RateRuns (before ++ inside) l) (he : e ∈ before)
    (he' : e' ∈ inside) : e.1.now ≤ e'.1.now := by
  obtain ⟨earlier, later, rfl⟩ := List.append_of_mem he'
  obtain ⟨c, o⟩ := e'
  have hbegins : (before ++ earlier) ++ [(c, o)] <+: before ++ (earlier ++ (c, o) :: later) :=
    ⟨later, by simp⟩
  obtain ⟨_, -, hallows, -⟩ := h.step_of_prefix hbegins
  exact hallows e (List.mem_append_left earlier he)

/-- The requests let through in an interval. -/
theorem admitted_le {t₁ : Int} {bucket : TokenBucket} (h : RateRuns (before ++ inside) l)
    (hle : t₀ ≤ t₁) (hinside : ∀ e ∈ inside, t₀ ≤ e.1.now ∧ e.1.now ≤ t₁)
    (hspares : ∀ e ∈ inside, e.1.op.Spares clientId)
    (hlookup : l.buckets.lookup clientId = some bucket) (hrate : 0 ≤ bucket.refillRate) :
    (inside.countP (admits clientId) : ℚ) ≤
      bucket.maxTokens + bucket.refillRate * ((t₁ - t₀) / 1000000000) := by
  have hscale : ∀ {x y : Int}, x ≤ y → bucket.refillRate * (((x : ℚ) - t₀) / 1000000000) ≤
      bucket.refillRate * ((y - t₀) / 1000000000) := by
    intro x y hxy
    have hcast : (x : ℚ) ≤ y := by exact_mod_cast hxy
    exact mul_le_mul_of_nonneg_left (by linarith) hrate
  by_cases hzero : inside.countP (admits clientId) = 0
  · obtain ⟨now, hnow⟩ := exists_end (before ++ inside)
    have hmax := (level_of_runs h hnow hlookup).maxTokens_nonneg
    have hbrought := hscale hle
    rw [sub_self, zero_div, mul_zero] at hbrought
    rw [hzero, Nat.cast_zero]
    linarith
  · obtain ⟨e', he', -⟩ := List.countP_pos_iff.mp (Nat.pos_of_ne_zero hzero)
    have hnow : ∀ e ∈ before ++ inside, e.1.now ≤ t₁ := by
      intro e he
      rcases List.mem_append.mp he with he | he
      · exact (now_le_of_runs h he he').trans (hinside e' he').2
      · exact (hinside e he).2
    rcases paid_of_runs h hspares fun e he => (hinside e he).1 with h | ⟨b, hb, hpaid⟩
    · exact absurd h hzero
    · cases hb.symm.trans hlookup
      obtain ⟨-, htokens, hspent⟩ := hpaid hrate
      have hend := hscale (level_of_runs h hnow hlookup).refilled
      linarith

end RateLimiter

/-! ## Main result -/

/-- A client gets at most the burst and what its rate brings in.  Tokens never exceed the
burst, and they are not negative unless a negative rate was replaced.  Calls for others
leave the bucket alone. -/
theorem rate_limited {before inside : List RateRecord} {l : RateLimiter}
    (h : RateRuns (before ++ inside) l) (clientId : Bytes) :
    (∀ t₀ t₁ bucket, t₀ ≤ t₁ → (∀ e ∈ inside, t₀ ≤ e.1.now ∧ e.1.now ≤ t₁) →
      (∀ e ∈ inside, e.1.op.Spares clientId) → l.buckets.lookup clientId = some bucket →
      0 ≤ bucket.refillRate → (inside.countP (admits clientId) : ℚ) ≤
        bucket.maxTokens + bucket.refillRate * ((t₁ - t₀ : ℚ) / 1000000000)) ∧
    (∀ bucket, l.buckets.lookup clientId = some bucket → bucket.tokens ≤ bucket.maxTokens ∧
      (0 ≤ bucket.refillRate → Machine.Everywhere RateLimiter.step {}
        (RateLimiter.KeepsRate clientId) (before ++ inside) → 0 ≤ bucket.tokens)) ∧
    ∀ c : RateCall, c.op.client? ≠ some clientId →
      (l.step c).2.buckets.lookup clientId = l.buckets.lookup clientId := by
  refine ⟨fun t₀ t₁ bucket hle hinside hspares hlookup hrate =>
    RateLimiter.admitted_le h hle hinside hspares hlookup hrate, ?_,
    fun c => RateLimiter.lookup_step⟩
  intro bucket hlookup
  obtain ⟨now, hnow⟩ := RateLimiter.exists_end (before ++ inside)
  exact ⟨(RateLimiter.level_of_runs h hnow hlookup).tokens_le,
    fun hrate hkeeps => RateLimiter.tokens_nonneg_of_runs h hkeeps hlookup hrate⟩

/-- A limiter with one bucket, that of the client without a name. -/
def lone (bucket : TokenBucket) (rate burst : ℚ) : RateLimiter where
  buckets := AList.singleton [] bucket
  defaultRefillRate := rate
  defaultMaxTokens := burst

theorem eq_lone {l : RateLimiter} {bucket : TokenBucket} {rate burst : ℚ}
    (h : l.buckets.entries = [⟨[], bucket⟩] ∧ l.defaultRefillRate = rate ∧
      l.defaultMaxTokens = burst) : l = lone bucket rate burst := by
  obtain ⟨buckets, _, _⟩ := l
  obtain ⟨hbuckets, rfl, rfl⟩ := h
  have hsingle : buckets = AList.singleton [] bucket := AList.ext hbuckets
  rw [hsingle]
  rfl

theorem lookup_lone {bucket : TokenBucket} {rate burst : ℚ} (clientId : Bytes) :
    (lone bucket rate burst).buckets.lookup clientId = if clientId = [] then some bucket else none :=
  Table.lookup_insert_eq ∅ [] clientId bucket

theorem runs_lone {past : List RateRecord} {l : RateLimiter} (h : RateRuns past l) (c : RateCall)
    (allowed : Bool) (bucket : TokenBucket) (rate burst : ℚ) (hnow : ∀ e ∈ past, e.1.now ≤ c.now)
    (hanswer : (l.step c).1 = allowed)
    (hstep : (l.step c).2.buckets.entries = [⟨[], bucket⟩] ∧ (l.step c).2.defaultRefillRate = rate ∧
      (l.step c).2.defaultMaxTokens = burst) :
    RateRuns (past ++ [(c, allowed)]) (lone bucket rate burst) :=
  h.extend hnow (Prod.ext hanswer (eq_lone hstep))

/-- A client without a name is served at once and half a second later. -/
def servedPast : List RateRecord :=
  [(⟨0, .allowRequest []⟩, true), (⟨500000000, .allowRequest []⟩, true)]

theorem runs_servedPast : RateRuns servedPast (lone ⟨9, 500000000, 100, 10⟩ 100 10) := by
  have hfirst := runs_lone .start ⟨0, .allowRequest []⟩ true ⟨9, 0, 100, 10⟩ 100 10 (by simp)
    (by decide +kernel) (by decide +kernel)
  exact runs_lone hfirst ⟨500000000, .allowRequest []⟩ true ⟨9, 500000000, 100, 10⟩ 100 10
    (by simp) (by decide +kernel) (by decide +kernel)

theorem rate_limited_of_served :
    (2 : ℚ) ≤ 10 + 100 * ((((500000000 : Int) : ℚ) - (0 : Int)) / 1000000000) ∧
      (9 : ℚ) ≤ 10 ∧ (0 : ℚ) ≤ 9 := by
  have hserved : RateRuns ([] ++ servedPast) (lone ⟨9, 500000000, 100, 10⟩ 100 10) :=
    runs_servedPast
  obtain ⟨hcount, hlevel, -⟩ := rate_limited hserved []
  obtain ⟨hle, hnonneg⟩ := hlevel _ (lookup_lone [])
  have htwo := hcount 0 500000000 ⟨9, 500000000, 100, 10⟩ (by decide) (by decide)
    (by unfold RateOp.Spares; decide) (lookup_lone []) (by norm_num)
  have hserves : servedPast.countP (admits []) = 2 := by decide
  rw [hserves] at htwo
  refine ⟨htwo, hle, hnonneg (by norm_num) ?_⟩
  intro before c o l hbegins _ rps bucket hop
  have hmem : (c, o) ∈ servedPast := hbegins.subset (List.mem_append_right before (by simp))
  have hrequests : ∀ e ∈ servedPast, e.1.op = .allowRequest [] := by decide
  cases hop.symm.trans (hrequests _ hmem)

/-- A client without a name uses up rate −1 and is then given rate 1. -/
def revivedPast : List RateRecord :=
  [(⟨0, .configure (-1) 10⟩, false), (⟨0, .allowRequest []⟩, true),
    (⟨20000000000, .allowRequest []⟩, false), (⟨20000000000, .setRate [] 1⟩, false),
    (⟨20000000000, .configure 1 10⟩, false)]

theorem runs_revivedPast : RateRuns revivedPast (lone ⟨-11, 20000000000, 1, 10⟩ 1 10) := by
  have hconfigured : RateRuns [(⟨0, .configure (-1) 10⟩, false)] { defaultRefillRate := -1 } :=
    Machine.Runs.start.extend (List.forall_mem_nil _) rfl
  have hserved := runs_lone hconfigured ⟨0, .allowRequest []⟩ true ⟨9, 0, -1, 10⟩ (-1) 10
    (by simp) (by decide +kernel) (by decide +kernel)
  have hdrained := runs_lone hserved ⟨20000000000, .allowRequest []⟩ false
    ⟨-11, 20000000000, -1, 10⟩ (-1) 10 (by simp) (by decide +kernel) (by decide +kernel)
  have hrevived := runs_lone hdrained ⟨20000000000, .setRate [] 1⟩ false
    ⟨-11, 20000000000, 1, 10⟩ (-1) 10 (by simp) (by decide +kernel) (by decide +kernel)
  exact runs_lone hrevived ⟨20000000000, .configure 1 10⟩ false
    ⟨-11, 20000000000, 1, 10⟩ 1 10 (by simp) (by decide +kernel) (by decide +kernel)

/-- No rate of a state is negative. -/
def RateLimiter.RatesNonneg (l : RateLimiter) : Prop :=
  0 ≤ l.defaultRefillRate ∧ ∀ clientId bucket, l.buckets.lookup clientId = some bucket →
    0 ≤ bucket.refillRate

/-- Tokens can be negative where no rate is. -/
theorem revived_negative :
    ¬ ∀ past l, RateRuns past l → l.RatesNonneg → ∀ clientId bucket,
      l.buckets.lookup clientId = some bucket →
        0 ≤ bucket.tokens ∧ bucket.tokens ≤ bucket.maxTokens := by
  intro h
  have hrates : (lone ⟨-11, 20000000000, 1, 10⟩ 1 10).RatesNonneg := by
    refine ⟨by norm_num [lone], fun clientId bucket hbucket => ?_⟩
    rw [lookup_lone] at hbucket
    split_ifs at hbucket
    cases hbucket
    norm_num
  exact absurd (h _ _ runs_revivedPast hrates [] _ (lookup_lone [])).1 (by norm_num)

end McpToolkit
