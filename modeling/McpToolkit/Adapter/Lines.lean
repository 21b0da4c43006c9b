import McpToolkit.Adapter.Run
/-!
# Line endings

`std::getline` takes the newline away and `run` one carriage return before it.  But an
empty line is recognised before the carriage return is gone, so that it is passed over
only without one.
-/

namespace McpToolkit

namespace MCPAdapter

/-! ## Reading -/

/-- The lines that `std::getline` reads from a stream, the last one also without a
newline. -/
def getlines : Bytes → List Bytes
  | [] => []
  | b :: t =>
      if b = newline then [] :: getlines t
      else
        match getlines t with
        | [] => [[b]]
        | line :: lines => (b :: line) :: lines

/-- The lines as `run` sees them, the `n`-th one at the `n`-th pair of readings of the
clock. -/
def timed (clock : Nat → Int × Int) (lines : List Bytes) : List Input :=
  lines.mapIdx fun n line => ⟨line, (clock n).1, (clock n).2⟩

/-- The lines with this at the end of each. -/
def terminated (ending : Bytes) (lines : List Bytes) : Bytes := lines.flatMap (· ++ ending)

def crlf : Bytes := [13, newline]

theorem timed_cons (clock : Nat → Int × Int) (line : Bytes) (lines : List Bytes) :
    timed clock (line :: lines) =
      ⟨line, (clock 0).1, (clock 0).2⟩ :: timed (fun n => clock (n + 1)) lines :=
  List.mapIdx_cons

theorem getlines_line {line : Bytes} (h : newline ∉ line) (t : Bytes) :
    getlines (line ++ newline :: t) = line :: getlines t := by
  induction line with
  | nil => rfl
  | cons b line ih =>
      rw [List.mem_cons, not_or] at h
      rw [List.cons_append, getlines, if_neg (Ne.symm h.1), ih h.2]

theorem getlines_lf {lines : List Bytes} (h : ∀ line ∈ lines, newline ∉ line) :
    getlines (terminated [newline] lines) = lines := by
  induction lines with
  | nil => rfl
  | cons line lines ih =>
      rw [List.forall_mem_cons] at h
      rw [terminated, List.flatMap_cons, List.append_assoc, List.singleton_append,
        getlines_line h.1]
      exact congrArg (line :: ·) (ih h.2)

theorem getlines_crlf {lines : List Bytes} (h : ∀ line ∈ lines, newline ∉ line) :
    getlines (terminated crlf lines) = lines.map (· ++ [13]) := by
  induction lines with
  | nil => rfl
  | cons line lines ih =>
      rw [List.forall_mem_cons] at h
      have hreturn : newline ∉ line ++ [13] := by
        rw [List.mem_append, not_or]
        exact ⟨h.1, by decide⟩
      rw [terminated, List.flatMap_cons, crlf, List.append_cons line, List.append_assoc,
        List.singleton_append, getlines_line hreturn]
      exact congrArg (_ :: ·) (ih h.2)

theorem newline_notMem_getlines (s : Bytes) : ∀ line ∈ getlines s, newline ∉ line := by
  induction s with
  | nil => exact List.forall_mem_nil _
  | cons b t ih =>
      rw [getlines]
      split_ifs with hb
      · exact List.forall_mem_cons.mpr ⟨List.not_mem_nil, ih⟩
      · split
        · next hnone => exact List.forall_mem_singleton.mpr fun h => hb (List.mem_singleton.mp h).symm
        · next line lines hlines =>
            rw [hlines, List.forall_mem_cons] at ih
            refine List.forall_mem_cons.mpr ⟨fun h => ?_, ih.2⟩
            rcases List.mem_cons.mp h with heq | hmem
            · exact hb heq.symm
            · exact ih.1 hmem

/-- Texts come back as lines if and only if none of them has a newline. -/
theorem getlines_terminated_iff (texts : List Bytes) :
    getlines (terminated [newline] texts) = texts ↔ ∀ text ∈ texts, newline ∉ text := by
  constructor
  · intro h
    rw [← h]
    exact newline_notMem_getlines _
  · exact getlines_lf

/-! ## One line -/

theorem stripReturn_concat (line : Bytes) : stripReturn (line ++ [13]) = line := by
  rw [stripReturn, List.getLast?_concat, if_pos rfl, List.dropLast_concat]

theorem stripReturn_of_notMem {line : Bytes} (h : 13 ∉ line) : stripReturn line = line := by
  rw [stripReturn, if_neg fun hlast => h (List.mem_of_getLast? hlast)]

section run

variable {σ : Type} (server : Server σ) (hmac : Bytes → Bytes → Digest)

/-- A carriage return changes nothing after a line that is not empty. -/
theorem runLine_return {line : Bytes} (hne : line ≠ []) (h : 13 ∉ line) (now later : Int)
    (s : AdapterState σ) : runLine server hmac ⟨line ++ [13], now, later⟩ s =
      runLine server hmac ⟨line, now, later⟩ s := by
  have hempty : (line ++ [13]).isEmpty = line.isEmpty := by
    cases line with
    | nil => exact absurd rfl hne
    | cons b line => rfl
  unfold runLine
  dsimp only
  rw [hempty, stripReturn_concat, stripReturn_of_notMem h]

/-- Alone it is a line that does not parse. -/
theorem runLine_return_alone (now later : Int) (s : AdapterState σ) :
    runLine server hmac ⟨[13], now, later⟩ s =
      .ok (s, [sendError none (-32700) (ascii "Parse error")]) := rfl

/-! ## Two runs -/

/-- The two runs end in one state.  With carriage returns there is one event more for
each empty line, and apart from these there is no difference. -/
theorem run_returns {lines : List Bytes} (hlines : ∀ line ∈ lines, 13 ∉ line)
    (clock : Nat → Int × Int) (s : AdapterState σ) :
    ∃ s' events events',
      run server hmac (timed clock (lines.map (· ++ [13]))) s = .ok (s', events) ∧
      run server hmac (timed clock lines) s = .ok (s', events') ∧
      events.length = events'.length + lines.count [] ∧ ([] ∉ lines → events = events') := by
  induction lines generalizing clock s with
  | nil => exact ⟨s, [], [], rfl, rfl, rfl, fun _ => rfl⟩
  | cons line lines ih =>
      rw [List.forall_mem_cons] at hlines
      rw [List.map_cons, timed_cons, timed_cons, run, run]
      by_cases hempty : line = []
      · subst hempty
        obtain ⟨s', events, events', hreturn, hrun, hlength, -⟩ :=
          ih hlines.2 (fun n => clock (n + 1)) s
        have hskip : runLine server hmac ⟨[], (clock 0).1, (clock 0).2⟩ s = .ok (s, []) := rfl
        rw [List.nil_append, runLine_return_alone, hskip, ok_bind, ok_bind]
        dsimp only
        rw [hreturn, hrun]
        refine ⟨s', _, events', rfl, rfl, ?_, fun h => absurd List.mem_cons_self h⟩
        rw [List.singleton_append, List.length_cons, hlength, List.count_cons_self]
        omega
      · obtain ⟨s₁, first, hfirst⟩ := runLine_returns server hmac
          ⟨line, (clock 0).1, (clock 0).2⟩ s
        obtain ⟨s', events, events', hreturn, hrun, hlength, hsame⟩ :=
          ih hlines.2 (fun n => clock (n + 1)) s₁
        rw [runLine_return server hmac hempty hlines.1, hfirst, ok_bind, ok_bind]
        dsimp only
        rw [hreturn, hrun]
        refine ⟨s', first ++ events, first ++ events', rfl, rfl, ?_, fun h => ?_⟩
        · rw [List.length_append, List.length_append, hlength, List.count_cons_of_ne hempty]
          omega
        · rw [hsame fun hmem => h (List.mem_cons_of_mem line hmem)]

/-- CR LF and LF are the same to a run if and only if no line is empty. -/
theorem run_crlf_iff (clock : Nat → Int × Int) {lines : List Bytes}
    (hlines : ∀ line ∈ lines, 13 ∉ line ∧ newline ∉ line) (s : AdapterState σ) :
    ∃ s' events events',
      run server hmac (timed clock (getlines (terminated crlf lines))) s = .ok (s', events) ∧
      run server hmac (timed clock (getlines (terminated [newline] lines))) s =
        .ok (s', events') ∧
      (events = events' ↔ [] ∉ lines) := by
  have hnewline : ∀ line ∈ lines, newline ∉ line := fun line h => (hlines line h).2
  obtain ⟨s', events, events', hreturn, hrun, hlength, hsame⟩ :=
    run_returns server hmac (fun line h => (hlines line h).1) clock s
  rw [getlines_crlf hnewline, getlines_lf hnewline]
  refine ⟨s', events, events', hreturn, hrun, fun heq hmem => ?_, hsame⟩
  have hpos := List.count_pos_iff.mpr hmem
  rw [heq] at hlength
  omega

end run

/-- Two lines, the second one empty. -/
theorem run_crlf_iff_of_listing :
    ∃ s' events events',
      run (Server.base Unit) secretHmac (timed (fun _ => (0, 0)) (getlines (terminated crlf
        [ascii "\x7b\"id\":1,\"method\":\"tools/list\"\x7d", []])))
        { adapter := {}, server := () } = .ok (s', events) ∧
      run (Server.base Unit) secretHmac (timed (fun _ => (0, 0)) (getlines (terminated [newline]
        [ascii "\x7b\"id\":1,\"method\":\"tools/list\"\x7d", []])))
        { adapter := {}, server := () } = .ok (s', events') ∧
      (events = events' ↔ [] ∉ [ascii "\x7b\"id\":1,\"method\":\"tools/list\"\x7d", []]) :=
  run_crlf_iff (Server.base Unit) secretHmac (fun _ => (0, 0)) (by decide +kernel) _

/-- An empty line with a carriage return is answered, without one it is not. -/
theorem run_crlf_empty :
    (run (Server.base Unit) secretHmac (timed (fun _ => (0, 0)) (getlines (terminated crlf [[]])))
        { adapter := {}, server := () }).map (·.2) =
      .ok [sendError none (-32700) (ascii "Parse error")] ∧
    (run (Server.base Unit) secretHmac (timed (fun _ => (0, 0)) (getlines (terminated [newline] [[]])))
        { adapter := {}, server := () }).map (·.2) = .ok [] := by
  decide +kernel

end MCPAdapter

end McpToolkit
