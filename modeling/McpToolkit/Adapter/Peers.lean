import McpToolkit.Adapter.Echo
import McpToolkit.Base.Runs
import Mathlib.Logic.Function.Basic
/-!
# Adapters that read each other

Any number of adapters, the output of each of which is the input of one of them.  A
request that is in flight is answered once, and no answer asks for anything.  The lines
that do not parse never stop: the parse error that one of them leads to does not parse.
-/

namespace McpToolkit

open MCPAdapter

/-- Adapters and their wiring. -/
structure Network (ι : Type) where
  State : ι → Type
  server : (n : ι) → Server (State n)
  hmac : Bytes → Bytes → Digest
  /-- Where the lines that an adapter writes are read. -/
  next : ι → ι

namespace Network

variable {ι : Type}

/-- The adapters, and the lines that have been written and not read, with their readers. -/
structure Config (net : Network ι) where
  adapter : (n : ι) → AdapterState (net.State n)
  inFlight : List (ι × Bytes)

/-- A line in flight is read. -/
structure Delivery (ι : Type) where
  reader : ι
  line : Bytes
  now : Int
  later : Int

variable {net : Network ι}

section step

variable [DecidableEq ι]

/-- The line is taken, and what the reader writes is in flight to the next one. -/
def step (c : net.Config) (d : Delivery ι) : List Event × net.Config :=
  match runLine (net.server d.reader) net.hmac ⟨d.line, d.now, d.later⟩ (c.adapter d.reader) with
  | .ok (s, events) => (events, {
      adapter := Function.update c.adapter d.reader s
      inFlight := c.inFlight.erase (d.reader, d.line) ++
        (getlines (outputs events).flatten).map fun line => (net.next d.reader, line) })
  | .error _ => ([], c)

/-- The lines are read in any order. -/
def Delivers (_ : List (Delivery ι × List Event)) (c : net.Config) (d : Delivery ι) : Prop :=
  (d.reader, d.line) ∈ c.inFlight

/-- The runs of the network from these lines in flight. -/
abbrev Runs (c₀ : net.Config) : List (Delivery ι × List Event) → net.Config → Prop :=
  Machine.Runs step Delivers c₀

end step

/-- What has happened. -/
def happened (past : List (Delivery ι × List Event)) : List Event := past.flatMap (·.2)

/-- The replies to requests. -/
def answers (events : List Event) : Nat :=
  (outputs events).countP (· ≠ parseErrorLine ++ [newline])

/-- The calls of tools. -/
def calls (events : List Event) : Nat :=
  events.countP fun e =>
    match e with
    | .callTool _ _ _ => true
    | _ => false

/-- The requests in flight. -/
def asking (c : net.Config) : Nat := c.inFlight.countP fun m => asks m.2

/-- The lines in flight that do not parse. -/
def noise (c : net.Config) : Nat := c.inFlight.countP fun m => Loud m.2

/-! ## Events -/

theorem happened_concat (past : List (Delivery ι × List Event)) (d : Delivery ι)
    (events : List Event) : happened (past ++ [(d, events)]) = happened past ++ events := by
  rw [happened, List.flatMap_append, List.flatMap_singleton]
  rfl

theorem answers_append (events events' : List Event) :
    answers (events ++ events') = answers events + answers events' := by
  rw [answers, outputs, List.filterMap_append, List.countP_append]
  rfl

theorem calls_append (events events' : List Event) :
    calls (events ++ events') = calls events + calls events' :=
  List.countP_append

section calls

variable {σ : Type} {server : Server σ} {s s' : AdapterState σ} {msg : MCPMessage}
variable {events : List Event}

theorem calls_cons {e : Event} (he : calls [e] = 0) (events : List Event) :
    calls (e :: events) = calls events := by
  rw [← List.singleton_append, calls_append, he, Nat.zero_add]

theorem calls_handleToolsList : calls (handleToolsList server s msg).2 = 0 := by
  unfold handleToolsList
  dsimp only
  split <;> rfl

theorem handles_calls {user : Option User} (h : Handles server s msg user s' events) :
    calls events ≤ 1 := by
  cases h with
  | initialized => exact Nat.zero_le 1
  | toolsList =>
      rw [calls_handleToolsList]
      exact Nat.zero_le 1
  | callRefused code message => exact Nat.zero_le 1
  | called name args => exact Nat.le_refl 1

theorem serves_calls {u : User} (h : Serves server s msg u s' events) : calls events ≤ 1 := by
  cases h with
  | refused code message => exact Nat.zero_le 1
  | handled _ hhandles => exact handles_calls hhandles

theorem dispatches_calls {hmac : Bytes → Bytes → Digest} {now later : Int}
    (h : Dispatches server s msg hmac now later s' events) : calls events ≤ 1 := by
  cases h with
  | unguarded _ hserves => exact serves_calls hserves
  | denied _ _ _ => exact Nat.zero_le 1
  | admitted _ _ _ hserves =>
      rw [calls_cons rfl]
      exact serves_calls hserves

theorem runLine_calls {hmac : Bytes → Bytes → Digest} {i : Input}
    (h : runLine server hmac i s = .ok (s', events)) : calls events ≤ 1 := by
  rcases runLine_cases server hmac i s with ⟨-, hrun⟩ | ⟨-, msg, -, ⟨-, hrun⟩ |
    ⟨-, -, -, s₁, served, hrun, houtcome⟩ | ⟨-, -, hrun⟩⟩
  · rw [hrun] at h
    cases h
    exact Nat.zero_le 1
  · rw [hrun] at h
    cases h
    exact Nat.zero_le 1
  · rw [hrun] at h
    cases h
    exact dispatches_calls houtcome
  · rw [hrun] at h
    cases h
    exact Nat.zero_le 1

end calls

/-! ## One delivery -/

section delivery

variable [DecidableEq ι]

theorem getlines_flatten_singleton {text : Bytes} (h : newline ∉ text) :
    getlines [text ++ [newline]].flatten = [text] := by
  rw [List.flatten_singleton, getlines_line h]
  rfl

theorem asks_reply {line : Bytes} (h : Reply line) : asks line = false := by
  unfold asks
  rw [h.stripReturn]
  by_cases hloud : Loud line
  · obtain ⟨msg, hparse, hinvalid⟩ := Reply.parse_loud hloud
    rw [hparse]
    dsimp only
    rw [hinvalid, Bool.and_false, Bool.false_and, Bool.false_and]
  · obtain ⟨msg, hparse, -, hrequest⟩ := h.parse_quiet hloud
    rw [hparse]
    dsimp only
    rw [hrequest, Bool.and_false, Bool.false_and]

/-- What a delivery does: the reader answers if it is asked, and says nothing or that the
line does not parse if it is not. -/
inductive Effect (c : net.Config) (d : Delivery ι) : List Event × net.Config → Prop where
  | answered {s : AdapterState (net.State d.reader)} {events : List Event} {text : Bytes} :
      asks d.line = true → outputs events = [text ++ [newline]] → text ≠ parseErrorLine →
      PlainlyWritten text → calls events ≤ 1 →
      Effect c d (events, {
        adapter := Function.update c.adapter d.reader s
        inFlight := c.inFlight.erase (d.reader, d.line) ++ [(net.next d.reader, text)] })
  | rejected : asks d.line = false →
      Effect c d ([.output (parseErrorLine ++ [newline])], {
        c with inFlight := c.inFlight.erase (d.reader, d.line) ++
          [(net.next d.reader, parseErrorLine)] })
  | ignored : asks d.line = false →
      Effect c d ([], { c with inFlight := c.inFlight.erase (d.reader, d.line) })

theorem written_parseErrorLine : PlainlyWritten parseErrorLine := by
  have hplain : ListsPlain (Server.base Unit) := fun s => List.forall_mem_nil _
  have hline : runLine (Server.base Unit) secretHmac ⟨parseErrorLine, 0, 0⟩
      { adapter := {}, server := () } = .ok (_, _) :=
    Reply.unparsed.runLine _ _ 0 0 _
  rw [if_pos (.inl rfl)] at hline
  exact ⟨Unit, _, secretHmac, _, _, _, _, hplain, run_singleton hline, List.mem_singleton_self _⟩

theorem effect_step (hplain : ∀ n, ListsPlain (net.server n)) (c : net.Config) (d : Delivery ι) :
    Effect c d (step c d) := by
  obtain ⟨s, events, hrun⟩ := runLine_returns (net.server d.reader) net.hmac
    ⟨d.line, d.now, d.later⟩ (c.adapter d.reader)
  unfold step
  rw [hrun]
  dsimp only
  rcases runLine_sends (hplain d.reader) hrun with
    ⟨hasks, text, hreply, hne, houtputs⟩ | ⟨hasks, rfl, rfl | rfl⟩
  · have hwritten : PlainlyWritten text := by
      refine ⟨_, _, net.hmac, _, _, _, _, hplain d.reader, run_singleton hrun, ?_⟩
      rw [houtputs]
      exact List.mem_singleton_self _
    rw [houtputs, getlines_flatten_singleton hreply.newline_notMem]
    exact .answered hasks houtputs hne hwritten (runLine_calls hrun)
  · have hlines : getlines (outputs []).flatten = [] := rfl
    rw [Function.update_eq_self, hlines, List.map_nil, List.append_nil]
    exact .ignored hasks
  · have hnewline : newline ∉ parseErrorLine := Reply.unparsed.newline_notMem
    rw [Function.update_eq_self]
    have hlines : getlines (outputs [.output (parseErrorLine ++ [newline])]).flatten =
      [parseErrorLine] := getlines_flatten_singleton hnewline
    rw [hlines]
    exact .rejected hasks

/-! ## Runs -/

variable {c c' : net.Config} {d : Delivery ι} {events : List Event}

/-- The lines of a kind in flight, when one line is taken. -/
theorem countP_taken (P : Bytes → Bool) (hflight : (d.reader, d.line) ∈ c.inFlight) :
    (c.inFlight.erase (d.reader, d.line)).countP (fun m => P m.2) + (if P d.line then 1 else 0) =
      c.inFlight.countP fun m => P m.2 := by
  rw [(List.perm_cons_erase hflight).countP_eq, List.countP_cons]

theorem Effect.answers_asking (h : Effect c d (events, c'))
    (hflight : (d.reader, d.line) ∈ c.inFlight) :
    answers events + asking c' = asking c := by
  have htaken := countP_taken asks hflight
  cases h with
  | @answered s _ text hasks houtputs hne hwritten hcalls =>
      have hanswers : answers events = 1 := by
        rw [answers, houtputs, List.countP_singleton, if_pos]
        simpa using hne
      rw [hanswers, asking, List.countP_append, asking, ← htaken]
      simp [hasks, asks_reply hwritten.reply, Nat.add_comm]
  | rejected hasks =>
      rw [asking, List.countP_append, asking, ← htaken]
      simp [answers, outputs, hasks, asks_reply Reply.unparsed]
  | ignored hasks =>
      rw [asking, asking, ← htaken]
      simp [answers, outputs, hasks]

theorem Effect.calls_le (h : Effect c d (events, c')) : calls events ≤ answers events := by
  cases h with
  | @answered s _ text hasks houtputs hne hwritten hcalls =>
      have hanswers : answers events = 1 := by
        rw [answers, houtputs, List.countP_singleton, if_pos]
        simpa using hne
      rw [hanswers]
      exact hcalls
  | rejected hasks => exact Nat.zero_le _
  | ignored hasks => exact Nat.zero_le _

theorem Effect.inFlight (h : Effect c d (events, c')) :
    ∀ m ∈ c'.inFlight, m ∈ c.inFlight ∨ PlainlyWritten m.2 := by
  cases h with
  | answered hasks houtputs hne hwritten hcalls =>
      refine List.forall_mem_append.mpr ⟨fun m hm => .inl (List.mem_of_mem_erase hm), ?_⟩
      exact List.forall_mem_singleton.mpr (.inr hwritten)
  | rejected hasks =>
      refine List.forall_mem_append.mpr ⟨fun m hm => .inl (List.mem_of_mem_erase hm), ?_⟩
      exact List.forall_mem_singleton.mpr (.inr written_parseErrorLine)
  | ignored hasks => exact fun m hm => .inl (List.mem_of_mem_erase hm)

variable {c₀ : net.Config} {past : List (Delivery ι × List Event)}

/-- If all servers list plain names of parameters, then whatever lines are in flight at first,
in every run each request among them is answered once, tools are called at most once for each
answer, and every other line that is in flight later is one that such an adapter writes. -/
theorem answered_once (hplain : ∀ n, ListsPlain (net.server n)) (h : Runs c₀ past c) :
    answers (happened past) + asking c = asking c₀ ∧
      calls (happened past) ≤ answers (happened past) ∧
      ∀ m ∈ c.inFlight, m ∈ c₀.inFlight ∨ PlainlyWritten m.2 := by
  apply h.invariant (I := fun past (c : net.Config) =>
    answers (happened past) + asking c = asking c₀ ∧
      calls (happened past) ≤ answers (happened past) ∧
      ∀ m ∈ c.inFlight, m ∈ c₀.inFlight ∨ PlainlyWritten m.2)
  · exact ⟨Nat.zero_add _, Nat.le_refl _, fun m hm => .inl hm⟩
  · rintro past c d ⟨hasking, hcalls, hflight⟩ hdelivers
    have heffect : Effect c d ((step c d).1, (step c d).2) := effect_step hplain c d
    rw [happened_concat, answers_append, calls_append]
    refine ⟨?_, Nat.add_le_add hcalls heffect.calls_le, fun m hm => ?_⟩
    · rw [Nat.add_assoc, heffect.answers_asking hdelivers, hasking]
    · rcases heffect.inFlight m hm with hm | hwritten
      · exact hflight m hm
      · exact .inr hwritten

/-- Two adapters that read each other. -/
def pair : Network Bool where
  State _ := Unit
  server _ := Server.base Unit
  hmac := secretHmac
  next n := !n

/-- One of them is to read this line. -/
def pairStart (line : Bytes) : pair.Config where
  adapter _ := { adapter := {}, server := () }
  inFlight := [(true, line)]

def pingLine : Bytes := ascii "\x7b\"id\":3,\"method\":\"ping\"\x7d"

theorem answered_once_of_ping :
    answers (step (pairStart pingLine) ⟨true, pingLine, 0, 0⟩).1 +
      asking (step (pairStart pingLine) ⟨true, pingLine, 0, 0⟩).2 =
      asking (pairStart pingLine) := by
  have hdelivers : Delivers [] (pairStart pingLine) ⟨true, pingLine, 0, 0⟩ :=
    List.mem_singleton_self (true, pingLine)
  have hruns : Runs (pairStart pingLine) _ _ := .next _ .start hdelivers
  have hplain : ∀ n, ListsPlain (pair.server n) := fun _ _ => List.forall_mem_nil _
  have hanswered := (answered_once hplain hruns).1
  rwa [happened_concat] at hanswered

/-! ## When only replies are in flight -/

theorem step_written (c : net.Config) (hwritten : PlainlyWritten d.line) : step c d =
    (if Loud d.line then [.output (parseErrorLine ++ [newline])] else [],
      { c with inFlight := c.inFlight.erase (d.reader, d.line) ++
          if Loud d.line then [(net.next d.reader, parseErrorLine)] else [] }) := by
  have hlines : getlines (outputs [.output (parseErrorLine ++ [newline])]).flatten =
    [parseErrorLine] := getlines_flatten_singleton Reply.unparsed.newline_notMem
  unfold step
  rw [hwritten.reply.runLine]
  dsimp only
  rw [Function.update_eq_self]
  by_cases hloud : Loud d.line
  · rw [if_pos hloud, if_pos hloud, hlines]
    rfl
  · rw [if_neg hloud, if_neg hloud]
    rfl

/-- What comes of replies: the adapters do nothing but say that a line does not parse, and
every line is gone once it is read, or its parse error takes its place. -/
structure Echoes (c₀ : net.Config) (past : List (Delivery ι × List Event)) (c : net.Config) :
    Prop where
  adapter : c.adapter = c₀.adapter
  events : ∀ e ∈ happened past, e = .output (parseErrorLine ++ [newline])
  noise : noise c = noise c₀
  balance : c.inFlight.length + past.length = c₀.inFlight.length + (happened past).length
  silent : Network.noise c₀ = 0 → happened past = []
  written : ∀ m ∈ c.inFlight, PlainlyWritten m.2

theorem Echoes.next (h : Echoes c₀ past c) (hflight : (d.reader, d.line) ∈ c.inFlight) :
    Echoes c₀ (past ++ [(d, (step c d).1)]) (step c d).2 := by
  have hwritten : PlainlyWritten d.line := h.written _ hflight
  have htaken := countP_taken (fun line => Loud line) hflight
  have hlength := List.length_erase_of_mem hflight
  have hpos := List.length_pos_of_mem hflight
  have hbalance := h.balance
  have hrest : ∀ m ∈ c.inFlight.erase (d.reader, d.line), PlainlyWritten m.2 :=
    fun m hm => h.written m (List.mem_of_mem_erase hm)
  rw [step_written c hwritten]
  by_cases hloud : Loud d.line
  · have hagain : Loud parseErrorLine := .inl rfl
    simp only [hloud, decide_true, if_true] at htaken
    rw [if_pos hloud, if_pos hloud]
    refine ⟨h.adapter, ?_, ?_, ?_, fun hquiet => ?_, ?_⟩
    · rw [happened_concat]
      exact List.forall_mem_append.mpr ⟨h.events, List.forall_mem_singleton.mpr rfl⟩
    · rw [← h.noise, Network.noise, Network.noise, ← htaken, List.countP_append,
        List.countP_singleton, if_pos (decide_eq_true hagain)]
    · simp only [happened_concat, List.length_append, List.length_singleton, hlength]
      omega
    · rw [← h.noise, Network.noise, ← htaken] at hquiet
      exact absurd hquiet (Nat.succ_ne_zero _)
    · exact List.forall_mem_append.mpr
        ⟨hrest, List.forall_mem_singleton.mpr written_parseErrorLine⟩
  · simp only [hloud, decide_false, Bool.false_eq_true, if_false, Nat.add_zero] at htaken
    rw [if_neg hloud, if_neg hloud, List.append_nil]
    refine ⟨h.adapter, ?_, ?_, ?_, fun hquiet => ?_, hrest⟩
    · rw [happened_concat, List.append_nil]
      exact h.events
    · rw [← h.noise, Network.noise, Network.noise, ← htaken]
    · simp only [happened_concat, List.length_append, List.length_singleton, hlength,
        List.length_nil]
      omega
    · rw [happened_concat, List.append_nil]
      exact h.silent hquiet

theorem echoes_of_runs (hwritten : ∀ m ∈ c₀.inFlight, PlainlyWritten m.2) (h : Runs c₀ past c) :
    Echoes c₀ past c :=
  h.invariant (I := Echoes c₀)
    ⟨rfl, List.forall_mem_nil _, rfl, rfl, fun _ => rfl, hwritten⟩
    fun _ _ _ hechoes hdelivers => hechoes.next hdelivers

/-- With a line in flight that does not parse, there is always another one to read. -/
theorem exists_run (hwritten : ∀ m ∈ c₀.inFlight, PlainlyWritten m.2) (hnoise : noise c₀ ≠ 0)
    (n : Nat) : ∃ past c, Runs c₀ past c ∧ past.length = n := by
  induction n with
  | zero => exact ⟨[], c₀, .start, rfl⟩
  | succ n ih =>
      obtain ⟨past, c, hruns, hlength⟩ := ih
      rw [← (echoes_of_runs hwritten hruns).noise] at hnoise
      obtain ⟨m, hm, -⟩ := List.countP_pos_iff.mp (Nat.pos_of_ne_zero hnoise)
      have hdelivers : Delivers past c ⟨m.1, m.2, 0, 0⟩ := hm
      refine ⟨_, _, hruns.next _ hdelivers, ?_⟩
      rw [List.length_append, hlength]
      rfl

/-- When all lines in flight are lines that adapters over servers with plain names of
parameters have written, no adapter does anything but to say that a line does not parse, and
there are as many lines in flight that do not parse as there were.  So the network comes to
rest, after one reading of each line, if and only if there is none of these. -/
theorem settles_iff (hwritten : ∀ m ∈ c₀.inFlight, PlainlyWritten m.2) :
    (∀ past c, Runs c₀ past c → c.adapter = c₀.adapter ∧
      (∀ e ∈ happened past, e = .output (parseErrorLine ++ [newline])) ∧ noise c = noise c₀ ∧
      c.inFlight.length + past.length = c₀.inFlight.length + (happened past).length) ∧
    ((∃ bound, ∀ past c, Runs c₀ past c → past.length ≤ bound) ↔
      ∀ m ∈ c₀.inFlight, ¬ Loud m.2) := by
  constructor
  · intro past c hruns
    have hechoes := echoes_of_runs hwritten hruns
    exact ⟨hechoes.adapter, hechoes.events, hechoes.noise, hechoes.balance⟩
  have hquiet : noise c₀ = 0 ↔ ∀ m ∈ c₀.inFlight, ¬ Loud m.2 := by
    rw [noise, List.countP_eq_zero]
    simp only [decide_eq_true_eq]
  rw [← hquiet]
  constructor
  · rintro ⟨bound, hbound⟩
    by_contra hnoise
    obtain ⟨past, c, hruns, hlength⟩ := exists_run hwritten hnoise (bound + 1)
    have hle := hbound past c hruns
    omega
  · intro hnoise
    refine ⟨c₀.inFlight.length, fun past c hruns => ?_⟩
    have hechoes := echoes_of_runs hwritten hruns
    have hbalance := hechoes.balance
    rw [hechoes.silent hnoise, List.length_nil] at hbalance
    omega

theorem settles_iff_of_unknown :
    ∃ bound, ∀ past c, Runs (pairStart unknownLine) past c → past.length ≤ bound := by
  have hwritten : ∀ m ∈ (pairStart unknownLine).inFlight, PlainlyWritten m.2 :=
    List.forall_mem_singleton.mpr written_unknownLine
  have hquiet : ¬ Loud unknownLine := by decide +kernel
  exact (settles_iff hwritten).2.mpr (List.forall_mem_singleton.mpr hquiet)

end delivery

end Network

end McpToolkit
