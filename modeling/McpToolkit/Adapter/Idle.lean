import McpToolkit.Adapter.Echo
/-!
# Lines that ask for nothing

A line that is no request with an id leaves no trace: without it a run ends in the same
state and does the same, but for the parse error that such a line may lead to.
-/

namespace McpToolkit

namespace MCPAdapter

section idle

variable {σ : Type} (server : Server σ) (hmac : Bytes → Bytes → Digest)

/-- A line that is not empty and does not parse. -/
def isRejected (line : Bytes) : Bool :=
  match MCPMessage.parse (some (stripReturn line)) kDefaultMaxBytes with
  | .ok msg => !line.isEmpty && !msg.valid
  | .error _ => false

/-- What is written of a line that does not parse. -/
def rejection : Event := .output (parseErrorLine ++ [newline])

theorem isRejected_eq {line : Bytes} {msg : MCPMessage}
    (hparse : MCPMessage.parse (some (stripReturn line)) kDefaultMaxBytes = .ok msg) :
    isRejected line = (!line.isEmpty && !msg.valid) := by
  rw [isRejected, hparse]

theorem asks_eq {line : Bytes} {msg : MCPMessage}
    (hparse : MCPMessage.parse (some (stripReturn line)) kDefaultMaxBytes = .ok msg) :
    asks line = (!line.isEmpty && msg.valid && msg.isRequest && msg.id.isSome) := by
  rw [asks, hparse]

/-- No line both asks and is rejected. -/
theorem isRejected_of_asks {line : Bytes} (hasks : asks line = true) :
    isRejected line = false := by
  obtain ⟨msg, hparse, -⟩ := parse_safe (some (stripReturn line)) kDefaultMaxBytes
  rw [asks_eq hparse] at hasks
  rw [isRejected_eq hparse]
  cases hvalid : msg.valid with
  | true => exact Bool.and_false _
  | false =>
      rw [hvalid, Bool.and_false, Bool.false_and, Bool.false_and] at hasks
      cases hasks

theorem runLine_idle {i : Input} (hidle : asks i.line = false) (s : AdapterState σ) :
    runLine server hmac i s = .ok (s, if isRejected i.line then [rejection] else []) := by
  obtain ⟨msg, hparse, -⟩ := parse_safe (some (stripReturn i.line)) kDefaultMaxBytes
  rw [asks_eq hparse] at hidle
  rw [isRejected_eq hparse]
  unfold runLine
  rw [hparse, ok_bind]
  by_cases hempty : i.line.isEmpty = true
  · rw [if_pos hempty, hempty]
    rfl
  rw [Bool.not_eq_true] at hempty
  rw [hempty, if_neg Bool.false_ne_true]
  by_cases hvalid : msg.valid = true
  · rw [hempty, hvalid, Bool.not_false, Bool.true_and, Bool.true_and, Bool.and_eq_false_iff]
      at hidle
    rw [hvalid, Bool.not_true, if_neg Bool.false_ne_true]
    apply dispatch_ignores
    rintro ⟨hrequest, hid⟩
    rcases hidle with hnot | hnone
    · exact Bool.false_ne_true (hnot.symm.trans hrequest)
    · exact hid (Option.isNone_iff_eq_none.mp (Option.isSome_eq_false_iff.mp hnone))
  · rw [Bool.not_eq_true] at hvalid
    rw [hvalid, sendError_parse]
    rfl

theorem run_cons {i : Input} {inputs : List Input} {s s₁ s' : AdapterState σ}
    {first events : List Event} (hfirst : runLine server hmac i s = .ok (s₁, first))
    (hrun : run server hmac inputs s₁ = .ok (s', events)) :
    run server hmac (i :: inputs) s = .ok (s', first ++ events) := by
  rw [run, hfirst, ok_bind]
  dsimp only
  rw [hrun]
  rfl

/-- Without the lines that ask for nothing, any run ends in the same state, and the same
happens in it in the same order, but for one parse error for each line that does not
parse. -/
theorem idle_unobservable (inputs : List Input) (s : AdapterState σ) :
    ∃ s' events served, run server hmac inputs s = .ok (s', events) ∧
      run server hmac (inputs.filter fun i => asks i.line) s = .ok (s', served) ∧
      served.Sublist events ∧
      events.Perm (served ++ List.replicate (inputs.countP fun i => isRejected i.line)
        rejection) := by
  induction inputs generalizing s with
  | nil => exact ⟨s, [], [], rfl, rfl, .slnil, .nil⟩
  | cons i inputs ih =>
      cases hasks : asks i.line with
      | true =>
          have hnot : ¬ isRejected i.line = true := by
            rw [isRejected_of_asks hasks]
            exact Bool.false_ne_true
          obtain ⟨s₁, first, hfirst⟩ := runLine_returns server hmac i s
          obtain ⟨s', events, served, hrun, hserved, hsublist, hperm⟩ := ih s₁
          refine ⟨s', first ++ events, first ++ served, run_cons server hmac hfirst hrun, ?_,
            hsublist.append_left first, ?_⟩
          · rw [List.filter_cons_of_pos (p := fun i : Input => asks i.line) hasks]
            exact run_cons server hmac hfirst hserved
          · rw [List.countP_cons_of_neg (p := fun i : Input => isRejected i.line) hnot,
              List.append_assoc]
            exact hperm.append_left first
      | false =>
          obtain ⟨s', events, served, hrun, hserved, hsublist, hperm⟩ := ih s
          have hline := runLine_idle server hmac hasks s
          refine ⟨s', _, served, run_cons server hmac hline hrun, ?_, ?_, ?_⟩
          · rw [List.filter_cons_of_neg (p := fun i : Input => asks i.line) (by simp [hasks])]
            exact hserved
          · exact hsublist.trans (List.sublist_append_right _ _)
          · rw [List.countP_cons]
            cases isRejected i.line with
            | false => exact hperm
            | true => exact (hperm.cons rejection).trans List.perm_middle.symm

end idle

end MCPAdapter

end McpToolkit
