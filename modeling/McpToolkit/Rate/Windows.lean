import McpToolkit.Base.Reservoir
import McpToolkit.Rate.Polling
/-!
# Which requests are let through

A bucket is a reservoir.  What it holds at a request is decided by the windows of earlier
requests that end there: in none of them may more requests have been let through than the
burst and the whole milliseconds inside of the window pay for.  Tokens, rates and bursts are
exact rationals here, so this is the arithmetic that the code means; `double` rounds it.
-/

namespace McpToolkit

open Reservoir

/-- A request of a client: its time and its answer. -/
abbrev Asked := Int × Bool

namespace TokenBucket

/-- The whole milliseconds between times that follow each other. -/
def wholeMilliseconds : List Int → Int
  | now :: next :: later => milliseconds (next - now) + wholeMilliseconds (next :: later)
  | _ => 0

/-- What a rate brings in between the first and the last of some times. -/
def brought (rate : ℚ) (times : List Int) : ℚ := wholeMilliseconds times / 1000 * rate

/-- The requests that were let through. -/
def admitted (asked : List Asked) : Nat := asked.countP (·.2)

/-- The requests as turns of a reservoir. -/
def turns (rate : ℚ) : Int → List Asked → List (Turn ℚ)
  | _, [] => []
  | last, (now, allowed) :: later =>
      ⟨milliseconds (now - last) / 1000 * rate, allowed.toNat⟩ :: turns rate now later

/-- The time of the last request, or of the refill before all of them. -/
def lastTime (last : Int) (asked : List Asked) : Int := asked.foldl (fun _ e => e.1) last

/-- What was let through is paid for by what the bucket held before and what came in since,
and in every window that ends with the last request by the burst and what came in inside. -/
def Affords (bucket : TokenBucket) (asked : List Asked) : Prop :=
  (admitted asked : ℚ) ≤
      bucket.tokens + brought bucket.refillRate (bucket.lastRefill :: asked.map (·.1)) ∧
    ∀ window, window ≠ [] → window <:+ asked →
      (admitted window : ℚ) ≤ bucket.maxTokens + brought bucket.refillRate (window.map (·.1))

/-- What the answers to some requests say about the bucket from which they came, and about
the bucket after them. -/
structure Answered (bucket : TokenBucket) (asked : List Asked) (after : TokenBucket) : Prop where
  tokens : after.tokens =
    levelAfter bucket.maxTokens bucket.tokens (turns bucket.refillRate bucket.lastRefill asked)
  lastRefill : after.lastRefill = lastTime bucket.lastRefill asked
  refillRate : after.refillRate = bucket.refillRate
  maxTokens : after.maxTokens = bucket.maxTokens
  decided : ∀ earlier now allowed, earlier ++ [(now, allowed)] <+: asked →
    (allowed = true ↔ bucket.Affords (earlier ++ [(now, true)]))

variable {bucket after : TokenBucket} {asked : List Asked} {now last : Int} {rate : ℚ}

theorem brought_cons (rate : ℚ) (now next : Int) (later : List Int) :
    brought rate (now :: next :: later) =
      milliseconds (next - now) / 1000 * rate + brought rate (next :: later) := by
  rw [brought, brought, wholeMilliseconds, Int.cast_add, add_div, add_mul]

theorem brought_singleton (rate : ℚ) (now : Int) : brought rate [now] = 0 := by
  have hnone : wholeMilliseconds [now] = 0 := rfl
  rw [brought, hnone, Int.cast_zero, zero_div, zero_mul]

/-- A refill at the time of the last one brings nothing. -/
theorem brought_twice (rate : ℚ) (now : Int) (later : List Int) :
    brought rate (now :: now :: later) = brought rate (now :: later) := by
  rw [brought_cons, sub_self, milliseconds, Int.zero_tdiv, Int.cast_zero, zero_div, zero_mul,
    zero_add]

theorem admitted_cons (now : Int) (allowed : Bool) (later : List Asked) :
    admitted ((now, allowed) :: later) = allowed.toNat + admitted later := by
  rw [admitted, List.countP_cons, admitted, Nat.add_comm]
  cases allowed <;> rfl

theorem turns_concat (rate : ℚ) (last : Int) (asked : List Asked) (now : Int) (allowed : Bool) :
    turns rate last (asked ++ [(now, allowed)]) = turns rate last asked ++
      [⟨milliseconds (now - lastTime last asked) / 1000 * rate, allowed.toNat⟩] := by
  induction asked generalizing last with
  | nil => rfl
  | cons e asked ih =>
      rw [List.cons_append, turns, turns, ih]
      rfl

theorem lastTime_concat (last : Int) (asked : List Asked) (now : Int) (allowed : Bool) :
    lastTime last (asked ++ [(now, allowed)]) = now := by
  rw [lastTime, List.foldl_append, List.foldl_cons, List.foldl_nil]

/-- Without losses, some requests take what is let through and leave what came in. -/
theorem net_turns (rate : ℚ) (last : Int) (asked : List Asked) :
    net (turns rate last asked) = brought rate (last :: asked.map (·.1)) - admitted asked := by
  induction asked generalizing last with
  | nil =>
      rw [List.map_nil, brought_singleton, admitted, List.countP_nil, Nat.cast_zero, sub_zero]
      rfl
  | cons e asked ih =>
      rw [turns, net_cons, ih, List.map_cons, brought_cons, admitted_cons, Nat.cast_add]
      ring

/-- The moments at which the bucket was full, as the windows that begin there. -/
theorem windows_iff (size rate : ℚ) (last : Int) (asked : List Asked) :
    (∀ t later, t :: later <:+ turns rate last asked → 0 ≤ size - t.outflow + net later) ↔
      ∀ window, window ≠ [] → window <:+ asked →
        (admitted window : ℚ) ≤ size + brought rate (window.map (·.1)) := by
  induction asked generalizing last with
  | nil =>
      constructor
      · intro _ window hne hwindow
        exact absurd (List.suffix_nil.mp hwindow) hne
      · intro _ t later hlater
        exact absurd (List.suffix_nil.mp hlater) (List.cons_ne_nil t later)
  | cons e asked ih =>
      obtain ⟨now, allowed⟩ := e
      have hwhole : 0 ≤ size - (allowed.toNat : ℚ) + net (turns rate now asked) ↔
          (admitted ((now, allowed) :: asked) : ℚ) ≤
            size + brought rate (now :: asked.map (·.1)) := by
        rw [net_turns, admitted_cons, Nat.cast_add]
        constructor <;> intro h <;> linarith
      constructor
      · intro h window hne hwindow
        rcases List.suffix_cons_iff.mp hwindow with rfl | hwindow
        · exact hwhole.mp (h _ _ (List.suffix_refl _))
        · refine (ih now).mp (fun t later hlater => ?_) window hne hwindow
          exact h t later (List.suffix_cons_iff.mpr (.inr hlater))
      · intro h t later hlater
        rcases List.suffix_cons_iff.mp hlater with heq | hlater
        · obtain ⟨rfl, rfl⟩ := List.cons.inj heq
          exact hwhole.mpr (h _ (List.cons_ne_nil _ _) (List.suffix_refl _))
        · refine (ih now).mpr (fun window hne hwindow => ?_) t later hlater
          exact h window hne (List.suffix_cons_iff.mpr (.inr hwindow))

/-- What is afforded are the requests that leave the level where it is not negative. -/
theorem affords_iff (bucket : TokenBucket) (asked : List Asked) : bucket.Affords asked ↔
    0 ≤ levelAfter bucket.maxTokens bucket.tokens
      (turns bucket.refillRate bucket.lastRefill asked) := by
  rw [le_levelAfter_iff, windows_iff, net_turns, Affords]
  refine and_congr_left fun _ => ?_
  constructor <;> intro h <;> linarith

/-! ## One request after the other -/

theorem Answered.refl (bucket : TokenBucket) : bucket.Answered [] bucket where
  tokens := rfl
  lastRefill := rfl
  refillRate := rfl
  maxTokens := rfl
  decided _ _ _ h :=
    absurd (List.prefix_nil.mp h) (List.append_ne_nil_of_right_ne_nil _ (List.cons_ne_nil _ _))

theorem request_allowed_iff : (bucket.request now).1 = true ↔ 1 ≤ (bucket.refill now).tokens := by
  by_cases h : 1 ≤ (bucket.refill now).tokens
  · exact iff_of_true (request_allowed h).1 h
  · rw [request_denied (not_le.mp h)]
    exact iff_of_false Bool.false_ne_true h

theorem request_tokens_eq (bucket : TokenBucket) (now : Int) : (bucket.request now).2.tokens =
    turn bucket.maxTokens bucket.tokens ⟨bucket.gain now, (bucket.request now).1.toNat⟩ := by
  rw [turn, ← refill_tokens]
  rcases request_tokens bucket now with ⟨hallowed, -, htokens⟩ | ⟨hdenied, htokens⟩
  · rw [hallowed, htokens, Bool.toNat_true, Nat.cast_one]
  · rw [hdenied, htokens, Bool.toNat_false, Nat.cast_zero, sub_zero]

/-- A request is let through if the bucket affords it. -/
theorem Answered.allowed_iff (h : bucket.Answered asked after) (now : Int) :
    (after.request now).1 = true ↔ bucket.Affords (asked ++ [(now, true)]) := by
  calc (after.request now).1 = true
      ↔ 1 ≤ min (after.tokens + after.gain now) after.maxTokens := by
        rw [request_allowed_iff, refill_tokens]
    _ ↔ 0 ≤ turn after.maxTokens after.tokens ⟨after.gain now, true.toNat⟩ := by
        rw [turn, Bool.toNat_true, Nat.cast_one, sub_nonneg]
    _ ↔ bucket.Affords (asked ++ [(now, true)]) := by
        rw [affords_iff, turns_concat, levelAfter_concat, ← h.tokens, ← h.lastRefill,
          ← h.refillRate, ← h.maxTokens, gain]

theorem Answered.request (h : bucket.Answered asked after) (now : Int) :
    bucket.Answered (asked ++ [(now, (after.request now).1)]) (after.request now).2 := by
  obtain ⟨hlast, hrate, hmax⟩ := request_frame after now
  refine ⟨?_, ?_, hrate.trans h.refillRate, hmax.trans h.maxTokens, ?_⟩
  · rw [request_tokens_eq, turns_concat, levelAfter_concat, ← h.tokens, ← h.lastRefill,
      ← h.refillRate, ← h.maxTokens, gain]
  · rw [hlast, lastTime_concat]
  · intro earlier time allowed hbegins
    rcases List.prefix_concat_iff.mp hbegins with heq | hbegins
    · obtain ⟨rfl, hsame⟩ := List.append_inj' heq rfl
      cases hsame
      exact h.allowed_iff now
    · exact h.decided earlier time allowed hbegins

/-! ## Schedules that are served in full -/

/-- A window that is afforded if all of it is let through. -/
def Fits (bucket : TokenBucket) (window : List Int) : Prop :=
  (window.length : ℚ) ≤ bucket.maxTokens + brought bucket.refillRate window

theorem admitted_window {window : List Asked} (hall : ∀ e ∈ window, e.2 = true) :
    (admitted window : ℚ) ≤ bucket.maxTokens + brought bucket.refillRate (window.map (·.1)) ↔
      bucket.Fits (window.map (·.1)) := by
  have hcount : admitted window = window.length := List.countP_eq_length.mpr hall
  rw [hcount, Fits, List.length_map]

/-- A full bucket affords requests if the windows that end with the last of them fit. -/
theorem affords_full (hfull : bucket.tokens = bucket.maxTokens) {e : Asked}
    (hfirst : e.1 = bucket.lastRefill) (hall : ∀ e' ∈ e :: asked, e'.2 = true)
    (hfits : ∀ window, window ≠ [] → window <:+ (e :: asked).map (·.1) → bucket.Fits window) :
    bucket.Affords (e :: asked) := by
  have hwindows : ∀ window, window ≠ [] → window <:+ e :: asked →
      (admitted window : ℚ) ≤
        bucket.maxTokens + brought bucket.refillRate (window.map (·.1)) := by
    intro window hne hwindow
    rw [admitted_window fun e' he' => hall e' (hwindow.subset he')]
    apply hfits _ (by simpa using hne)
    exact hwindow.map _
  refine ⟨?_, hwindows⟩
  rw [hfull, List.map_cons, hfirst, brought_twice, ← hfirst]
  exact hwindows (e :: asked) (List.cons_ne_nil _ _) (List.suffix_refl _)

/-- Requests that are all let through. -/
def served (times : List Int) : List Asked := times.map (·, true)

theorem served_times (times : List Int) : (served times).map (·.1) = times := by
  rw [served, List.map_map]
  exact List.map_id _

theorem eq_served (hall : ∀ e ∈ asked, e.2 = true) : asked = served (asked.map (·.1)) := by
  rw [served, List.map_map]
  refine (List.map_id asked).symm.trans (List.map_congr_left fun e he => ?_)
  exact Prod.ext rfl (hall e he)

/-- If all requests are let through, all their windows fit. -/
theorem Answered.fits (h : bucket.Answered asked after) (hall : ∀ e ∈ asked, e.2 = true)
    {window : List Int} (hne : window ≠ []) (hwindow : window <:+: asked.map (·.1)) :
    bucket.Fits window := by
  obtain ⟨before, behind, hsplit⟩ := hwindow
  obtain ⟨front, now, rfl⟩ := (List.eq_nil_or_concat' window).resolve_left hne
  have hbegins : served (before ++ front) ++ [(now, true)] <+: asked := by
    refine ⟨served behind, ?_⟩
    rw [eq_served hall, ← hsplit]
    simp [served]
  have hafford := ((h.decided _ _ _ hbegins).mp rfl).2 (served (front ++ [now]))
    (by simp [served]) ⟨served before, by simp [served]⟩
  rw [admitted_window (by simp [served]), served_times] at hafford
  exact hafford

/-- If the windows fit, one more request is let through behind those that were. -/
theorem Answered.next_allowed (h : bucket.Answered asked after)
    (hfull : bucket.tokens = bucket.maxTokens)
    (hfirst : ∀ now ∈ (asked.map (·.1)).head?, now = bucket.lastRefill)
    (hfits : ∀ window, window ≠ [] → window <:+: asked.map (·.1) → bucket.Fits window)
    {earlier : List Asked} (hearlier : ∀ e ∈ earlier, e.2 = true) {now : Int} {allowed : Bool}
    (hbegins : earlier ++ [(now, allowed)] <+: asked) : allowed = true := by
  rw [h.decided _ _ _ hbegins]
  have hall : ∀ e ∈ earlier ++ [(now, true)], e.2 = true :=
    List.forall_mem_append.mpr ⟨hearlier, List.forall_mem_singleton.mpr rfl⟩
  have htimes : (earlier ++ [(now, true)]).map (·.1) <+: asked.map (·.1) := by
    simpa using hbegins.map (·.1)
  generalize hnow : earlier ++ [(now, true)] = asked' at hall htimes
  cases asked' with
  | nil => simp at hnow
  | cons e asked' =>
      apply affords_full hfull _ hall
      · intro window hne hwindow
        exact hfits window hne (hwindow.isInfix.trans htimes.isInfix)
      · obtain ⟨rest, hrest⟩ := htimes
        apply hfirst
        rw [← hrest]
        rfl

/-- All requests to a full bucket are let through if and only if all their windows fit. -/
theorem Answered.all_iff (h : bucket.Answered asked after)
    (hfull : bucket.tokens = bucket.maxTokens)
    (hfirst : ∀ now ∈ (asked.map (·.1)).head?, now = bucket.lastRefill) :
    (∀ e ∈ asked, e.2 = true) ↔
      ∀ window, window ≠ [] → window <:+: asked.map (·.1) → bucket.Fits window := by
  refine ⟨fun hall window => h.fits hall, fun hfits => ?_⟩
  -- by induction on how many requests there have been
  have hserved : ∀ earlier, earlier <+: asked → ∀ e ∈ earlier, e.2 = true := by
    intro earlier
    induction earlier using List.reverseRecOn with
    | nil => exact fun _ => List.forall_mem_nil _
    | append_singleton earlier e ih =>
        intro hbegins
        have hearlier := ih ((List.prefix_append _ _).trans hbegins)
        have hallowed : e.2 = true := h.next_allowed hfull hfirst hfits hearlier hbegins
        exact List.forall_mem_append.mpr ⟨hearlier, List.forall_mem_singleton.mpr hallowed⟩
  exact hserved asked (List.prefix_refl _)

end TokenBucket

/-! ## Runs -/

/-- The requests of a client. -/
def asked (clientId : Bytes) (past : List RateRecord) : List Asked :=
  past.filterMap fun e => if e.1.op = .allowRequest clientId then some (e.1.now, e.2) else none

namespace RateLimiter

open TokenBucket

variable {l l₀ : RateLimiter} {before inside : List RateRecord} {clientId : Bytes}
variable {bucket after : TokenBucket}

theorem asked_concat (clientId : Bytes) (past : List RateRecord) (e : RateRecord) :
    asked clientId (past ++ [e]) = asked clientId past ++ asked clientId [e] :=
  List.filterMap_append

theorem asked_other {c : RateCall} (h : c.op.client? ≠ some clientId) (o : Bool) :
    asked clientId [(c, o)] = [] := by
  have hop : c.op ≠ .allowRequest clientId := fun hop => h (by rw [hop]; rfl)
  simp only [asked, List.filterMap_cons, List.filterMap_nil, if_neg hop]

theorem asked_request (clientId : Bytes) (now : Int) (o : Bool) :
    asked clientId [(⟨now, .allowRequest clientId⟩, o)] = [(now, o)] := by
  simp only [asked, List.filterMap_cons, List.filterMap_nil, if_pos]

/-- One more call, if the bucket is there. -/
theorem answered_step {c : RateCall} {asked₀ : List Asked}
    (hlookup : l.buckets.lookup clientId = some after) (h : bucket.Answered asked₀ after)
    (hspares : c.op.Spares clientId) :
    ∃ after', (l.step c).2.buckets.lookup clientId = some after' ∧
      bucket.Answered (asked₀ ++ asked clientId [(c, (l.step c).1)]) after' := by
  by_cases hclient : c.op.client? = some clientId
  · obtain ⟨now, op⟩ := c
    cases hspares hclient
    have hat : l.bucketAt clientId now = after := by rw [bucketAt, hlookup]; rfl
    refine ⟨(after.request now).2, ?_, ?_⟩
    · rw [lookup_allowRequest, hat]
    · have hanswer : (l.step ⟨now, .allowRequest clientId⟩).1 = (after.request now).1 := by
        rw [← hat]
        rfl
      rw [hanswer, asked_request]
      exact h.request now
  · rw [lookup_step hclient, asked_other hclient, List.append_nil]
    exact ⟨after, hlookup, h⟩

theorem answered_of_runs (hbefore : RateRuns before l₀) (h : RateRuns (before ++ inside) l)
    (hspares : ∀ e ∈ inside, e.1.op.Spares clientId)
    (hlookup : l₀.buckets.lookup clientId = some bucket) :
    ∃ after, l.buckets.lookup clientId = some after ∧
      bucket.Answered (asked clientId inside) after := by
  induction inside using List.reverseRecOn generalizing l with
  | nil =>
      rw [List.append_nil] at h
      rw [← hbefore.unique h]
      exact ⟨bucket, hlookup, .refl bucket⟩
  | append_singleton inside e ih =>
      rw [← List.append_assoc] at h
      obtain ⟨c, o⟩ := e
      obtain ⟨l, hrun, -, rfl, rfl⟩ := h.last
      obtain ⟨hinside, hlast⟩ := List.forall_mem_append.mp hspares
      obtain ⟨after, hafter, hanswered⟩ := ih hrun hinside
      rw [asked_concat]
      exact answered_step hafter hanswered (hlast _ (List.mem_singleton_self _))

/-- A call with no bucket there makes one only if it is a request. -/
theorem answered_first {c : RateCall} (hlookup : l.buckets.lookup clientId = none)
    (hspares : c.op.Spares clientId) :
    asked clientId [(c, (l.step c).1)] = [] ∧ (l.step c).2.buckets.lookup clientId = none ∨
      ∃ now rate burst after, (l.step c).2.buckets.lookup clientId = some after ∧
        ((asked clientId [(c, (l.step c).1)]).map (·.1)).head? = some now ∧
        (TokenBucket.new now rate burst).Answered (asked clientId [(c, (l.step c).1)]) after := by
  by_cases hclient : c.op.client? = some clientId
  · obtain ⟨now, op⟩ := c
    cases hspares hclient
    have hat : l.bucketAt clientId now = .new now l.defaultRefillRate l.defaultMaxTokens := by
      rw [bucketAt, hlookup]
      rfl
    have hrequest := (Answered.refl (l.bucketAt clientId now)).request now
    rw [asked_request]
    refine .inr ⟨now, l.defaultRefillRate, l.defaultMaxTokens, _, lookup_allowRequest now,
      rfl, ?_⟩
    rw [← hat]
    exact hrequest
  · rw [asked_other hclient, lookup_step hclient]
    exact .inl ⟨rfl, hlookup⟩

/-- The bucket that the first request makes. -/
theorem answered_fresh (hbefore : RateRuns before l₀) (h : RateRuns (before ++ inside) l)
    (hspares : ∀ e ∈ inside, e.1.op.Spares clientId)
    (hlookup : l₀.buckets.lookup clientId = none) :
    asked clientId inside = [] ∧ l.buckets.lookup clientId = none ∨
      ∃ now rate burst after, l.buckets.lookup clientId = some after ∧
        ((asked clientId inside).map (·.1)).head? = some now ∧
        (TokenBucket.new now rate burst).Answered (asked clientId inside) after := by
  induction inside using List.reverseRecOn generalizing l with
  | nil =>
      rw [List.append_nil] at h
      rw [← hbefore.unique h]
      exact .inl ⟨rfl, hlookup⟩
  | append_singleton inside e ih =>
      rw [← List.append_assoc] at h
      obtain ⟨c, o⟩ := e
      obtain ⟨l, hrun, -, rfl, rfl⟩ := h.last
      obtain ⟨hinside, hlast⟩ := List.forall_mem_append.mp hspares
      have hspare : c.op.Spares clientId := hlast _ (List.mem_singleton_self _)
      rw [asked_concat]
      rcases ih hrun hinside with ⟨hnone, hl⟩ | ⟨now, rate, burst, after, hl, hhead, hanswered⟩
      · rw [hnone, List.nil_append]
        exact answered_first hl hspare
      · obtain ⟨after', hafter', hanswered'⟩ := answered_step hl hanswered hspare
        refine .inr ⟨now, rate, burst, after', hafter', ?_, hanswered'⟩
        rw [List.map_append, List.head?_append, hhead]
        rfl

end RateLimiter

/-! ## Main results -/

/-- A request is let through exactly if the bucket affords it: with it, what was let through
is within what the bucket held and what came in since, and every window of requests that
ends with it is within the burst and what came in inside. -/
theorem allowed_iff_affords {before inside : List RateRecord} {l₀ l : RateLimiter}
    (hbefore : RateRuns before l₀) (h : RateRuns (before ++ inside) l) (clientId : Bytes)
    (hspares : ∀ e ∈ inside, e.1.op.Spares clientId) (now : Int) :
    (∀ bucket, l₀.buckets.lookup clientId = some bucket →
      ((l.allowRequest clientId now).1 = true ↔
        bucket.Affords (asked clientId inside ++ [(now, true)]))) ∧
    (l.buckets.lookup clientId = none →
      ((l.allowRequest clientId now).1 = true ↔ 1 ≤ l.defaultMaxTokens)) := by
  constructor
  · intro bucket hlookup
    obtain ⟨after, hafter, hanswered⟩ :=
      RateLimiter.answered_of_runs hbefore h hspares hlookup
    have hat : l.bucketAt clientId now = after := by rw [RateLimiter.bucketAt, hafter]; rfl
    rw [← hanswered.allowed_iff now, ← hat]
    rfl
  · intro hnone
    have hat : l.bucketAt clientId now = .new now l.defaultRefillRate l.defaultMaxTokens := by
      rw [RateLimiter.bucketAt, hnone]
      rfl
    have hfull : ((l.bucketAt clientId now).refill now).tokens = l.defaultMaxTokens := by
      rw [hat, TokenBucket.refill_tokens, TokenBucket.gain]
      simp [TokenBucket.new, TokenBucket.milliseconds]
    rw [← hfull, ← TokenBucket.request_allowed_iff]
    rfl

/-- All requests of a client since its bucket was made are let through exactly if in every
window of them there are no more than the burst and what came in inside pay for. -/
theorem served_iff_fits {before inside : List RateRecord} {l₀ l : RateLimiter}
    (hbefore : RateRuns before l₀) (h : RateRuns (before ++ inside) l) {clientId : Bytes}
    (hspares : ∀ e ∈ inside, e.1.op.Spares clientId)
    (hnew : l₀.buckets.lookup clientId = none) {bucket : TokenBucket}
    (hlookup : l.buckets.lookup clientId = some bucket) :
    (∀ e ∈ asked clientId inside, e.2 = true) ↔
      ∀ window, window ≠ [] → window <:+: (asked clientId inside).map (·.1) →
        bucket.Fits window := by
  rcases RateLimiter.answered_fresh hbefore h hspares hnew with
    ⟨-, hnone⟩ | ⟨now, rate, burst, after, hafter, hhead, hanswered⟩
  · rw [hnone] at hlookup
    cases hlookup
  · cases hafter.symm.trans hlookup
    have hfits : ∀ window, bucket.Fits window ↔ (TokenBucket.new now rate burst).Fits window := by
      intro window
      rw [TokenBucket.Fits, TokenBucket.Fits, hanswered.maxTokens, hanswered.refillRate]
    simp only [hfits]
    refine hanswered.all_iff rfl fun first hfirst => ?_
    rw [hhead] at hfirst
    exact (Option.some_inj.mp hfirst).symm

/-- The first request of `servedPast` has been let through, and then the second. -/
theorem allowed_iff_affords_of_served :
    TokenBucket.Affords ⟨9, 0, 100, 10⟩ [(500000000, true), (500000000, true)] := by
  have hfirst : RateRuns (servedPast.take 1) (lone ⟨9, 0, 100, 10⟩ 100 10) :=
    runs_lone .start ⟨0, .allowRequest []⟩ true ⟨9, 0, 100, 10⟩ 100 10 (by simp)
      (by decide +kernel) (by decide +kernel)
  have hspares : ∀ e ∈ servedPast.drop 1, e.1.op.Spares [] := by
    unfold RateOp.Spares
    decide
  exact ((allowed_iff_affords hfirst runs_servedPast [] hspares 500000000).1 _
    (lookup_lone [])).mp (by decide +kernel)

theorem served_iff_fits_of_served : TokenBucket.Fits ⟨9, 500000000, 100, 10⟩ [0, 500000000] := by
  have hspares : ∀ e ∈ servedPast, e.1.op.Spares [] := by
    unfold RateOp.Spares
    decide
  have hserved : RateRuns ([] ++ servedPast) (lone ⟨9, 500000000, 100, 10⟩ 100 10) :=
    runs_servedPast
  exact (served_iff_fits .start hserved hspares rfl (lookup_lone [])).mp (by decide) _
    (List.cons_ne_nil _ _) (List.infix_refl _)

/-! ## Other clients -/

inductive RateInput where
  | call (c : RateCall)
  | getTokens (clientId : Bytes)
  deriving DecidableEq

inductive RateAnswer where
  | allowed (allowed : Bool)
  | tokens (tokens : ℚ)
  deriving DecidableEq

/-- The calls that are about another client. -/
def RateInput.isForeign (clientId : Bytes) : RateInput → Bool
  | .call c => c.op.client?.any (· ≠ clientId)
  | .getTokens d => d ≠ clientId

namespace RateLimiter

/-- The tokens of a client, zero if it has no bucket. -/
def getTokens (l : RateLimiter) (clientId : Bytes) : ℚ :=
  match l.buckets.lookup clientId with
  | some bucket => bucket.tokens
  | none => 0

def respond (l : RateLimiter) : RateInput → RateAnswer × RateLimiter
  | .call c =>
      let (allowed, l) := l.step c
      (.allowed allowed, l)
  | .getTokens clientId => (.tokens (l.getTokens clientId), l)

/-- What a limiter knows of a client is the same. -/
structure SameFor (clientId : Bytes) (l' l : RateLimiter) : Prop where
  lookup : l'.buckets.lookup clientId = l.buckets.lookup clientId
  defaultRefillRate : l'.defaultRefillRate = l.defaultRefillRate
  defaultMaxTokens : l'.defaultMaxTokens = l.defaultMaxTokens

variable {l l' : RateLimiter} {clientId : Bytes} {c : RateCall}

theorem defaults_step (h : c.op.client? ≠ none) :
    (l.step c).2.defaultRefillRate = l.defaultRefillRate ∧
      (l.step c).2.defaultMaxTokens = l.defaultMaxTokens := by
  obtain ⟨now, op⟩ := c
  cases op with
  | configure rps burst => exact absurd rfl h
  | allowRequest d => exact ⟨rfl, rfl⟩
  | setRate d rps =>
      unfold step
      dsimp only
      rw [setRate_eq]
      exact ⟨rfl, rfl⟩
  | setBurst d burst =>
      unfold step setBurst
      dsimp only
      cases l.buckets.lookup d <;> exact ⟨rfl, rfl⟩
  | resetClient d => exact ⟨rfl, rfl⟩

theorem foreign_iff : (RateInput.call c).isForeign clientId = true ↔
    ∃ d, c.op.client? = some d ∧ d ≠ clientId := by
  simp only [RateInput.isForeign, Option.any_eq_true, decide_eq_true_iff]

theorem SameFor.bucketAt (h : SameFor clientId l' l) (now : Int) :
    l'.bucketAt clientId now = l.bucketAt clientId now := by
  rw [RateLimiter.bucketAt, RateLimiter.bucketAt, h.lookup, h.defaultRefillRate,
    h.defaultMaxTokens]

/-- Calls about others change nothing for a client. -/
theorem SameFor.foreign (h : SameFor clientId l' l)
    (hforeign : (RateInput.call c).isForeign clientId = true) :
    SameFor clientId (l'.step c).2 l := by
  obtain ⟨d, hclient, hne⟩ := foreign_iff.mp hforeign
  have hother : c.op.client? ≠ some clientId := by
    rw [hclient]
    exact fun heq => hne (Option.some_inj.mp heq)
  have hnamed : c.op.client? ≠ none := by
    rw [hclient]
    exact Option.some_ne_none d
  obtain ⟨hrate, hmax⟩ := defaults_step (l := l') (c := c) hnamed
  exact ⟨(lookup_step hother).trans h.lookup, hrate.trans h.defaultRefillRate,
    hmax.trans h.defaultMaxTokens⟩

/-- The calls about a client do the same to its bucket in both states. -/
theorem SameFor.about (h : SameFor clientId l' l) (hclient : c.op.client? = some clientId) :
    (l'.step c).1 = (l.step c).1 ∧
      (l'.step c).2.buckets.lookup clientId = (l.step c).2.buckets.lookup clientId := by
  obtain ⟨now, op⟩ := c
  cases op with
  | configure rps burst => cases hclient
  | allowRequest d =>
      obtain rfl := Option.some.inj hclient
      rw [lookup_allowRequest, lookup_allowRequest, h.bucketAt]
      refine ⟨?_, rfl⟩
      change ((l'.bucketAt d now).request now).1 = ((l.bucketAt d now).request now).1
      rw [h.bucketAt]
  | setRate d rps =>
      obtain rfl := Option.some.inj hclient
      refine ⟨rfl, ?_⟩
      unfold step
      dsimp only
      rw [setRate_eq, setRate_eq, AList.lookup_insert, AList.lookup_insert, h.bucketAt]
  | setBurst d burst =>
      obtain rfl := Option.some.inj hclient
      refine ⟨rfl, ?_⟩
      unfold step setBurst
      dsimp only
      rw [h.lookup, h.defaultRefillRate]
      cases l.buckets.lookup d with
      | none =>
          dsimp only
          rw [AList.lookup_insert, AList.lookup_insert]
      | some bucket =>
          dsimp only
          rw [AList.lookup_insert, AList.lookup_insert]
  | resetClient d =>
      obtain rfl := Option.some.inj hclient
      refine ⟨rfl, ?_⟩
      change (l'.buckets.erase d).lookup d = (l.buckets.erase d).lookup d
      rw [AList.lookup_erase, AList.lookup_erase]

/-- The client's own calls, and those about no client, do the same in both states. -/
theorem SameFor.own (h : SameFor clientId l' l)
    (hown : (RateInput.call c).isForeign clientId = false) :
    (l'.step c).1 = (l.step c).1 ∧ SameFor clientId (l'.step c).2 (l.step c).2 := by
  by_cases hnone : c.op.client? = none
  · obtain ⟨now, op⟩ := c
    cases op with
    | configure rps burst => exact ⟨rfl, h.lookup, rfl, rfl⟩
    | _ => cases hnone
  · obtain ⟨d, hclient⟩ := Option.ne_none_iff_exists'.mp hnone
    have hd : d = clientId := by
      by_contra hne
      rw [foreign_iff.mpr ⟨d, hclient, hne⟩] at hown
      cases hown
    rw [hd] at hclient
    obtain ⟨hrate', hmax'⟩ := defaults_step (l := l') hnone
    obtain ⟨hrate, hmax⟩ := defaults_step (l := l) hnone
    obtain ⟨hanswer, hlookup⟩ := h.about hclient
    exact ⟨hanswer, hlookup, by rw [hrate', hrate, h.defaultRefillRate],
      by rw [hmax', hmax, h.defaultMaxTokens]⟩

theorem SameFor.respond_foreign {i : RateInput} (h : SameFor clientId l' l)
    (hforeign : i.isForeign clientId = true) : SameFor clientId (l'.respond i).2 l := by
  cases i with
  | call c => exact h.foreign hforeign
  | getTokens d => exact h

theorem SameFor.respond_own {i : RateInput} (h : SameFor clientId l' l)
    (hown : i.isForeign clientId = false) :
    (l'.respond i).1 = (l.respond i).1 ∧ SameFor clientId (l'.respond i).2 (l.respond i).2 := by
  cases i with
  | call c =>
      obtain ⟨hanswer, hafter⟩ := h.own hown
      exact ⟨congrArg RateAnswer.allowed hanswer, hafter⟩
  | getTokens d =>
      have hd : d = clientId := by simpa [RateInput.isForeign] using hown
      have htokens : l'.getTokens d = l.getTokens d := by
        rw [getTokens, getTokens, hd, h.lookup]
      exact ⟨congrArg RateAnswer.tokens htokens, h⟩

end RateLimiter

/-- Whatever other clients do in between, a client gets the answers that it would get alone. -/
theorem others_unobservable (l : RateLimiter) (clientId : Bytes) (inputs : List RateInput) :
    (Machine.records RateLimiter.respond l inputs).filter (fun e => !e.1.isForeign clientId) =
      Machine.records RateLimiter.respond l (inputs.filter fun i => !i.isForeign clientId) := by
  let own := fun e : RateInput × RateAnswer => !e.1.isForeign clientId
  have hsame : (Machine.records RateLimiter.respond l inputs).filterMap (Option.guard own) =
      (Machine.records RateLimiter.respond l
        (inputs.filter fun i => !i.isForeign clientId)).filterMap (Option.guard own) := by
    apply Machine.observe_records _ (RateInput.isForeign clientId)
      (R := fun _ l' l => RateLimiter.SameFor clientId l' l)
    · intro i inputs l' l h hforeign
      exact ⟨by simp [Option.guard, own, hforeign], h.respond_foreign hforeign⟩
    · intro i inputs l' l h hown
      obtain ⟨hanswer, hafter⟩ := h.respond_own hown
      exact ⟨by rw [hanswer], hafter⟩
    · exact ⟨rfl, rfl, rfl⟩
  rw [List.filterMap_eq_filter] at hsame
  calc (Machine.records RateLimiter.respond l inputs).filter own
      = (Machine.records RateLimiter.respond l
          (inputs.filter fun i => !i.isForeign clientId)).filter own := hsame
    _ = Machine.records RateLimiter.respond l
          (inputs.filter fun i => !i.isForeign clientId) := by
        rw [List.filter_eq_self]
        intro e he
        have hmem := List.mem_map.mpr ⟨e, he, Eq.refl e.1⟩
        rw [Machine.records_inputs] at hmem
        exact (List.mem_filter.mp hmem).2

end McpToolkit
