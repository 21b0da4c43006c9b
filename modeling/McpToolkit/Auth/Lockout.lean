import McpToolkit.Auth.Handler
import Mathlib.Algebra.Group.Int.Defs
import Mathlib.Algebra.Group.Nat.Defs
/-!
# Lockout

`record_failure`, `reset_failures` and `is_locked_out` over runs.  A client should be
locked out from the failure on that reaches the maximum until its failures are reset.
The counter is an `int`: it stands for the failures since the reset as long as these are
fewer than 2^31, and after that it starts again below zero.
-/

namespace McpToolkit

/-- A call that counts. -/
inductive FailureCall where
  | recordFailure (clientId : Bytes)
  | resetFailures (clientId : Bytes)
  deriving Repr, DecidableEq

namespace FailureCall

def clientId : FailureCall → Bytes
  | .recordFailure clientId => clientId
  | .resetFailures clientId => clientId

def run (h : AuthenticationHandler) : FailureCall → AuthenticationHandler
  | .recordFailure clientId => h.recordFailure clientId
  | .resetFailures clientId => h.resetFailures clientId

end FailureCall

/-- How many failures of a client have been recorded since its last reset. -/
def failuresSince (clientId : Bytes) (calls : List FailureCall) : Nat :=
  (calls.reverse.takeWhile fun call => call ≠ .resetFailures clientId).count
    (.recordFailure clientId)

section history

variable {clientId : Bytes} {calls : List FailureCall}

theorem failuresSince_record : failuresSince clientId (calls ++ [.recordFailure clientId]) =
    failuresSince clientId calls + 1 := by
  simp [failuresSince]

theorem failuresSince_reset : failuresSince clientId (calls ++ [.resetFailures clientId]) = 0 := by
  simp [failuresSince]

/-- The calls of other clients do not count. -/
theorem failuresSince_other {call : FailureCall} (h : call.clientId ≠ clientId) :
    failuresSince clientId (calls ++ [call]) = failuresSince clientId calls := by
  have hreset : call ≠ .resetFailures clientId := by
    rintro rfl
    exact h rfl
  have hrecord : call ≠ .recordFailure clientId := by
    rintro rfl
    exact h rfl
  simp [failuresSince, hreset, hrecord]

theorem failuresSince_others {others : List FailureCall}
    (h : ∀ call ∈ others, call.clientId ≠ clientId) :
    failuresSince clientId (calls ++ others) = failuresSince clientId calls := by
  induction others using List.reverseRecOn with
  | nil => rw [List.append_nil]
  | append_singleton others call ih =>
      rw [← List.append_assoc, failuresSince_other (h call (by simp)),
        ih fun call' hcall => h call' (List.mem_append_left _ hcall)]

theorem failuresSince_replicate (k : Nat) :
    failuresSince clientId (calls ++ List.replicate k (.recordFailure clientId)) =
      failuresSince clientId calls + k := by
  induction k with
  | zero => rw [List.replicate_zero, List.append_nil, Nat.add_zero]
  | succ k ih =>
      rw [List.replicate_succ', ← List.append_assoc, failuresSince_record, ih, Nat.add_assoc]

end history

namespace AuthenticationHandler

/-- The handler after some calls. -/
def after (config : AuthConfig) (calls : List FailureCall) : AuthenticationHandler :=
  calls.foldl FailureCall.run (configure {} config)

variable (config : AuthConfig) (calls : List FailureCall) (clientId : Bytes)

theorem after_concat (call : FailureCall) :
    after config (calls ++ [call]) = call.run (after config calls) := by
  rw [after, List.foldl_append]
  rfl

theorem config_after : (after config calls).config = config := by
  induction calls using List.reverseRecOn with
  | nil => rfl
  | append_singleton calls call ih =>
      have hkept : (call.run (after config calls)).config = (after config calls).config := by
        cases call <;> rfl
      rw [after_concat, hkept, ih]

theorem lookup_recordFailure (h : AuthenticationHandler) (other : Bytes) :
    (h.recordFailure other).failedAttempts.lookup clientId =
      if clientId = other then some ((h.failedAttempts.lookup other).getD 0 + 1)
      else h.failedAttempts.lookup clientId := by
  rw [recordFailure, List.lookup_cons, lookup_eraseKey]
  by_cases heq : clientId = other
  · rw [heq, beq_self_eq_true, if_pos rfl, if_pos rfl]
  · rw [if_neg heq, if_neg heq, beq_eq_false_iff_ne.mpr heq]

/-- A call leaves the counters of other clients alone. -/
theorem lookup_run_of_ne (h : AuthenticationHandler) {call : FailureCall}
    (hne : call.clientId ≠ clientId) :
    (call.run h).failedAttempts.lookup clientId = h.failedAttempts.lookup clientId := by
  cases call with
  | recordFailure other =>
      have hother : clientId ≠ other := Ne.symm hne
      rw [FailureCall.run, lookup_recordFailure, if_neg hother]
  | resetFailures other =>
      have hother : clientId ≠ other := Ne.symm hne
      rw [FailureCall.run, resetFailures, lookup_eraseKey, if_neg hother]

/-- The counter of a client is the number of its failures as an `int`. -/
theorem lookup_after : (after config calls).failedAttempts.lookup clientId =
    if failuresSince clientId calls = 0 then none
    else some (Int32.ofNat (failuresSince clientId calls)) := by
  induction calls using List.reverseRecOn with
  | nil => rfl
  | append_singleton calls call ih =>
      rw [after_concat]
      by_cases hclient : call.clientId = clientId
      · cases call with
        | recordFailure other =>
            obtain rfl : other = clientId := hclient
            have hcounter : ((after config calls).failedAttempts.lookup other).getD 0 =
                Int32.ofNat (failuresSince other calls) := by
              rw [ih]
              split_ifs with hzero
              · rw [hzero]
                rfl
              · rfl
            rw [FailureCall.run, lookup_recordFailure, if_pos rfl, hcounter, failuresSince_record,
              if_neg (Nat.succ_ne_zero _), Int32.ofNat_add]
            rfl
        | resetFailures other =>
            obtain rfl : other = clientId := hclient
            rw [FailureCall.run, resetFailures, lookup_eraseKey, if_pos rfl, failuresSince_reset,
              if_pos rfl]
      · rw [lookup_run_of_ne clientId _ hclient, ih, failuresSince_other hclient]

theorem le_bmod_iff {limit : Int} (hlimit : 1 ≤ limit) (n : Nat) :
    limit ≤ (n : Int).bmod (2 ^ 32) ↔
      limit ≤ (n : Int) % 2 ^ 32 ∧ (n : Int) % 2 ^ 32 < 2 ^ 31 := by
  rw [Int.bmod_eq_emod]
  split_ifs with hhigh <;> omega

/-- The maximum is compared with the counter, which is below zero for half of the time. -/
theorem isLockedOut_after (hmax : 1 ≤ config.maxFailedAttempts) :
    (after config calls).isLockedOut clientId = true ↔
      config.maxFailedAttempts.toInt ≤ (failuresSince clientId calls : Int) % 2 ^ 32 ∧
        (failuresSince clientId calls : Int) % 2 ^ 32 < 2 ^ 31 := by
  have hpos : (1 : Int) ≤ config.maxFailedAttempts.toInt := Int32.le_iff_toInt_le.mp hmax
  rw [← le_bmod_iff hpos, isLockedOut, lookup_after, config_after]
  by_cases hzero : failuresSince clientId calls = 0
  · rw [if_pos hzero, hzero]
    refine iff_of_false Bool.false_ne_true ?_
    rw [Int.natCast_zero, Int.zero_bmod]
    omega
  · rw [if_neg hzero]
    dsimp only
    have hsize : Int32.size = 2 ^ 32 := rfl
    rw [decide_eq_true_eq, ge_iff_le, Int32.le_iff_toInt_le, Int32.toInt_ofNat', hsize]

/-- What the counter shows is what it should. -/
def Counts (maxFailedAttempts : Int32) (n : Nat) : Prop :=
  (n : Int) < maxFailedAttempts.toInt ∨
    maxFailedAttempts.toInt ≤ (n : Int) % 2 ^ 32 ∧ (n : Int) % 2 ^ 32 < 2 ^ 31

/-- Lockout shows exactly whether the maximum has been reached, as long as the counter
counts. -/
theorem isLockedOut_exact_iff (hmax : 1 ≤ config.maxFailedAttempts) :
    ((after config calls).isLockedOut clientId = true ↔
      config.maxFailedAttempts.toInt ≤ failuresSince clientId calls) ↔
        Counts config.maxFailedAttempts (failuresSince clientId calls) := by
  rw [isLockedOut_after config calls clientId hmax, Counts]
  omega

/-- In every run and for every client, lockout shows exactly whether as many failures as the
maximum have been recorded since the last reset if and only if the counter counts; other
clients' calls do not change it; and a client that is locked out is so after further
failures if and only if the counter counts them. -/
theorem lockout_holds_iff (config : AuthConfig) (hmax : 1 ≤ config.maxFailedAttempts)
    (calls : List FailureCall) (clientId : Bytes) :
    (((after config calls).isLockedOut clientId = true ↔
        config.maxFailedAttempts.toInt ≤ failuresSince clientId calls) ↔
      Counts config.maxFailedAttempts (failuresSince clientId calls)) ∧
    (∀ others : List FailureCall, (∀ call ∈ others, call.clientId ≠ clientId) →
      (after config (calls ++ others)).isLockedOut clientId =
        (after config calls).isLockedOut clientId) ∧
    ((after config calls).isLockedOut clientId = true → ∀ k,
      ((after config (calls ++ List.replicate k (.recordFailure clientId))).isLockedOut clientId =
          true ↔
        Counts config.maxFailedAttempts (failuresSince clientId calls + k))) := by
  refine ⟨isLockedOut_exact_iff config calls clientId hmax, fun others hothers => ?_,
    fun hlocked k => ?_⟩
  · rw [Bool.eq_iff_iff, isLockedOut_after config _ clientId hmax,
      isLockedOut_after config _ clientId hmax, failuresSince_others hothers]
  · rw [isLockedOut_after config _ clientId hmax] at hlocked ⊢
    rw [failuresSince_replicate, Counts]
    omega

theorem lockout_holds_iff_of_default :
    (after {} (List.replicate 10 (.recordFailure []))).isLockedOut [] = true ∧
      (after {} (List.replicate 10 (.recordFailure []) ++
        List.replicate 5 (.recordFailure []))).isLockedOut [] = true := by
  have hlocked : (after {} (List.replicate 10 (.recordFailure []))).isLockedOut [] = true := by
    decide
  have hcounts : Counts ({} : AuthConfig).maxFailedAttempts
      (failuresSince [] (List.replicate 10 (.recordFailure [])) + 5) := .inr (by decide)
  exact ⟨hlocked, ((lockout_holds_iff {} (by decide) _ []).2.2 hlocked 5).mpr hcounts⟩

/-- A client that fails 2^31 times is not locked out, although ten failures are enough. -/
theorem lockout_ends_by_failures :
    (after {} (List.replicate 10 (.recordFailure []))).isLockedOut [] = true ∧
      (after {} (List.replicate (2 ^ 31) (.recordFailure []))).isLockedOut [] = false ∧
      ({} : AuthConfig).maxFailedAttempts.toInt ≤
        failuresSince [] (List.replicate (2 ^ 31) (.recordFailure [])) := by
  have hcount : ∀ k, failuresSince [] (List.replicate k (.recordFailure [])) = k := by
    intro k
    have hall := @failuresSince_replicate [] [] k
    rw [List.nil_append] at hall
    exact hall.trans (Nat.zero_add k)
  have hmax : ({} : AuthConfig).maxFailedAttempts.toInt = 10 := rfl
  refine ⟨by decide, ?_, ?_⟩
  · rw [Bool.eq_false_iff, Ne, isLockedOut_after {} _ [] (by decide), hcount, hmax]
    omega
  · rw [hcount, hmax]
    omega

end AuthenticationHandler

end McpToolkit
