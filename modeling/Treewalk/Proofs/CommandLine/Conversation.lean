import Treewalk.CommandLine
import Treewalk.Proofs.Session.Input

/-!
# Prompts and programs that share the input

A process that prompts takes a line off its input, runs it, and prompts again; the programs that it
runs take lines off the same input. A *conversation* lists all these readings in order. The prompts
and the programs together take the lines of the input one after the other, so that no line is lost
and none is taken twice, and the process ends when a prompt finds no line left.

## Main definitions

* `CommandLine.Conversation`: prompts, each with the run of its line.

## Main results

* `CommandLine.Conversation.takes`: the readings of a conversation.
* `CommandLine.exists_promptFrom_iff`: a process that prompts ends when a prompt finds no line left.
* `CommandLine.lines_conserved`: both for a whole process.
-/

namespace Treewalk

namespace CommandLine

/-- Prompts one after the other, each of which takes a line off the input that is then run, with all
readings in order. -/
inductive Conversation (fuel : Nat) : Session → List Reading → Session → Prop
  /-- No prompt. -/
  | silent (s : Session) : Conversation fuel s [] s
  /-- A prompt and the run of its line. -/
  | turn {s s₁ s' : Session} {m : Machine} {line written reported : String} {log : List Moment}
      {readings : List Reading} (hread : s.machine.readLine = (.text line, m))
      (hlog : Session.Logged { s with machine := m } fuel line log)
      (hanswer : answer fuel { s with machine := m } line = some (written, reported, s₁))
      (later : Conversation fuel s₁ readings s') :
    Conversation fuel s (⟨.prompt, s.machine⟩ :: (log.filterMap Moment.reading? ++ readings)) s'

variable {fuel bound : Nat} {s s₁ s' : Session} {line written reported output errors : String}
  {cs : List Char} {readings : List Reading} {log : List Moment} {m : Machine}

/-! ### One turn -/

/-- Handing over what a run has written leaves the input. -/
theorem exists_run_of_answer (h : answer fuel s line = some (written, reported, s₁)) :
    ∃ status s', s.run fuel line = some (status, s') ∧ s₁.machine.input = s'.machine.input := by
  rw [answer, Option.bind_eq_bind, Option.bind_eq_some_iff] at h
  obtain ⟨⟨status, s'⟩, hrun, h⟩ := h
  cases h
  exact ⟨status, s', hrun, rfl⟩

/-- What a prompt reads before a text. -/
theorem readLine_eq (m : Machine) :
    m.readLine = ((Line.read m.input).1, { m with input := (Line.read m.input).2 }) :=
  rfl

/-- A prompt before the end of the input finds it. -/
theorem readLine_ended_iff (hinput : m.input = Utf8.encode cs) :
    m.readLine.1 = .ended ↔ cs = [] := by
  rw [readLine_eq]
  constructor
  · intro hended
    by_contra hcs
    obtain ⟨line, rest, -, -, hread⟩ := Line.read_encode hcs
    rw [hinput, hread] at hended
    cases hended
  · rintro rfl
    rw [hinput]
    rfl

/-- After a turn less of the input is left. -/
theorem takes_turn (hinput : s.machine.input = Utf8.encode cs)
    (hread : s.machine.readLine = (.text line, m))
    (hlog : Session.Logged { s with machine := m } fuel line log)
    (hanswer : answer fuel { s with machine := m } line = some (written, reported, s₁)) :
    ∃ rest, s₁.machine.input = Utf8.encode rest ∧ rest.length < cs.length ∧
      Takes cs (⟨.prompt, s.machine⟩ :: log.filterMap Moment.reading?) rest := by
  have hcs : cs ≠ [] := by
    intro hcs
    have hended := (readLine_ended_iff hinput).mpr hcs
    rw [hread] at hended
    cases hended
  obtain ⟨taken, next, hne, hlines, hline⟩ := Line.read_encode hcs
  rw [← hinput] at hline
  have hm : m.input = Utf8.encode next := by
    rw [readLine_eq, hline] at hread
    cases hread
    rfl
  obtain ⟨status, s₂, hrun, hsame⟩ := exists_run_of_answer hanswer
  obtain ⟨rest, hrest, htakes⟩ := hlog.takes hrun hm
  refine ⟨rest, hsame.trans hrest, ?_, .line hinput hne hlines hline htakes⟩
  have hflatten := congrArg List.flatten hlines
  rw [Line.flatten_lines, List.flatten_cons, Line.flatten_lines] at hflatten
  have hlength := htakes.suffix.length_le
  have hpos := List.length_pos_iff.mpr hne
  rw [hflatten, List.length_append]
  omega

/-! ### Conversations -/

/-- The readings of a conversation take the lines of the input one after the other. -/
theorem Conversation.takes (h : Conversation fuel s readings s')
    (hinput : s.machine.input = Utf8.encode cs) :
    ∃ rest, s'.machine.input = Utf8.encode rest ∧ Takes cs readings rest := by
  induction h generalizing cs with
  | silent => exact ⟨cs, hinput, .done cs⟩
  | turn hread hlog hanswer later ih =>
    obtain ⟨rest, hrest, -, hturn⟩ := takes_turn hinput hread hlog hanswer
    obtain ⟨left, hleft, hlater⟩ := ih hrest
    exact ⟨left, hleft, hturn.append hlater⟩

/-- Every character has an octet. -/
theorem length_le_encode (cs : List Char) : cs.length ≤ (Utf8.encode cs).length := by
  induction cs with
  | nil => exact Nat.le_refl 0
  | cons c cs ih =>
    have hpos := List.length_pos_iff.mpr (Utf8.encodeChar_ne_nil c)
    rw [Utf8.encode_cons, List.length_append, List.length_cons]
    omega

theorem promptFrom_ended (hread : s.machine.readLine.1 = .ended) :
    promptFrom fuel (bound + 1) s output errors =
      some ⟨Status.ok.exitCode, output ++ promptText ++ "\n", errors⟩ := by
  rw [promptFrom]
  rcases hm : s.machine.readLine with ⟨taken, m⟩
  rw [hm] at hread
  cases hread
  rfl

theorem promptFrom_text (hread : s.machine.readLine = (.text line, m)) :
    promptFrom fuel (bound + 1) s output errors =
      (answer fuel { s with machine := m } line).bind fun p =>
        promptFrom fuel bound p.2.2 (output ++ promptText ++ p.1) (errors ++ p.2.1) := by
  rw [promptFrom, hread]
  rfl

/-- A process that prompts before a text ends just if a conversation leads to a prompt that finds no
line left, and then its exit code is that of success. -/
theorem exists_promptFrom_iff (hinput : s.machine.input = Utf8.encode cs) (hbound : cs.length < bound)
    (output errors : String) :
    (∀ outcome, promptFrom fuel bound s output errors = some outcome → outcome.code = 0) ∧
      ((∃ outcome, promptFrom fuel bound s output errors = some outcome) ↔
        ∃ readings s', Conversation fuel s readings s' ∧ s'.machine.readLine.1 = .ended) := by
  induction bound generalizing s cs output errors with
  | zero => exact absurd hbound (Nat.not_lt_zero _)
  | succ bound ih =>
    by_cases hcs : cs = []
    · have hended := (readLine_ended_iff hinput).mpr hcs
      rw [promptFrom_ended hended]
      refine ⟨fun outcome h => ?_, fun _ => ⟨[], s, .silent s, hended⟩, fun _ => ⟨_, rfl⟩⟩
      cases h
      rfl
    · obtain ⟨taken, next, -, -, hline⟩ := Line.read_encode hcs
      have hread : s.machine.readLine =
          (.text (String.ofList taken), { s.machine with input := Utf8.encode next }) := by
        rw [readLine_eq, hinput, hline]
      rw [promptFrom_text hread]
      cases hanswer : answer fuel { s with machine := { s.machine with input := Utf8.encode next } }
          (String.ofList taken) with
      | none =>
        refine ⟨fun outcome h => ?_, fun ⟨outcome, h⟩ => ?_, fun ⟨readings, s', h, hended⟩ => ?_⟩
        · cases h
        · cases h
        · cases h with
          | silent => exact absurd ((readLine_ended_iff hinput).mp hended) hcs
          | turn hread' _ hanswer' =>
            rw [hread] at hread'
            cases hread'
            rw [hanswer] at hanswer'
            cases hanswer'
      | some p =>
        obtain ⟨written, reported, s₁⟩ := p
        obtain ⟨log, hlog⟩ := Session.exists_logged
          { s with machine := { s.machine with input := Utf8.encode next } } fuel
          (String.ofList taken)
        obtain ⟨rest, hrest, hlength, -⟩ := takes_turn hinput hread hlog hanswer
        obtain ⟨hcode, hiff⟩ := ih hrest (by omega) (output ++ promptText ++ written)
          (errors ++ reported)
        refine ⟨hcode, hiff.trans ⟨?_, ?_⟩⟩
        · rintro ⟨readings, s', h, hended⟩
          exact ⟨_, s', .turn hread hlog hanswer h, hended⟩
        · rintro ⟨readings, s', h, hended⟩
          cases h with
          | silent => exact absurd ((readLine_ended_iff hinput).mp hended) hcs
          | turn hread' _ hanswer' later =>
            rw [hread] at hread'
            cases hread'
            rw [hanswer] at hanswer'
            cases hanswer'
            exact ⟨_, s', later, hended⟩

/-! ### A whole process -/

/-- Lines are neither lost nor taken twice. In every conversation over an input in UTF-8, the lines
that prompts and programs have taken, in the order of their readings, and the lines that are left are
together the lines of the input; a reading finds no line just if there is no input left. A program
that takes a line gets it without the line feeds and carriage returns at its end; at the end of the
input, and from then on, it gets nil. The process ends just if a prompt finds no line left, and then
with the exit code of success, whatever was reported. -/
theorem lines_conserved (host : Host) (fuel : Nat) (hinput : host.input = Utf8.encode cs) :
    (∀ readings s', Conversation fuel (.start host.clock host.input) readings s' →
      (∃ rest, s'.machine.input = Utf8.encode rest ∧
        Line.lines cs = readings.filterMap Reading.line? ++ Line.lines rest) ∧
      (∀ r ∈ readings, r.line? = none ↔ r.machine.input = []) ∧
      (∀ r ∈ readings, r.taker = .program → ∀ arguments line, ∃ v m',
        Native.readLine.run arguments line r.machine = .ok v m' ∧ (r.line? = none → v = .nil) ∧
        ∀ taken, r.line? = some taken → ∃ (t : String) (ending : List Char), v = .string t ∧
          taken = t.toList ++ ending ∧ (∀ c ∈ ending, c = '\n' ∨ c = '\r') ∧
          ∀ c, t.toList.getLast? = some c → c ≠ '\n' ∧ c ≠ '\r') ∧
      readings.Pairwise fun p q => p.line? = none → q.line? = none) ∧
    (∀ outcome, prompt host fuel = some outcome → outcome.code = 0) ∧
    ((∃ outcome, prompt host fuel = some outcome) ↔
      ∃ readings s', Conversation fuel (.start host.clock host.input) readings s' ∧
        s'.machine.readLine.1 = .ended) := by
  have hstart : (Session.start host.clock host.input).machine.input = Utf8.encode cs := hinput
  refine ⟨fun readings s' h => ?_, ?_⟩
  · obtain ⟨rest, hrest, htakes⟩ := h.takes hstart
    refine ⟨⟨rest, hrest, htakes.lines_eq⟩, fun r hr => ?_, fun r hr _ arguments line => ?_,
      htakes.pairwise_line?⟩
    · obtain ⟨text, htext⟩ := htakes.exists_input r hr
      exact Takes.line?_eq_none_iff htext
    · obtain ⟨text, htext⟩ := htakes.exists_input r hr
      exact Reading.run_readLine htext arguments line
  · refine exists_promptFrom_iff hstart ?_ "" ""
    rw [hstart]
    exact Nat.lt_succ_of_le (length_le_encode cs)

/-- A line that reads another one, that line, and a line with a fault. -/
def sharedText : List Char :=
  "var x = readLine();\nfirst\n+;\n".toList

/-- The process that is given `sharedText`. -/
def sharedHost : Host where
  file _ := .error .missing
  input := Utf8.encode sharedText
  clock _ := 0

theorem lines_conserved_shared :
    ∃ readings s', Conversation 8 (.start sharedHost.clock sharedHost.input) readings s' ∧
      s'.machine.readLine.1 = .ended ∧
      readings.filterMap Reading.line? = Line.lines sharedText := by
  have hinput : sharedHost.input = Utf8.encode sharedText := rfl
  obtain ⟨hreadings, -, hends⟩ := lines_conserved sharedHost 8 hinput
  have houtcome : (prompt sharedHost 8).isSome := by decide +kernel
  obtain ⟨readings, s', h, hended⟩ := hends.mp (Option.isSome_iff_exists.mp houtcome)
  obtain ⟨⟨rest, hrest, hlines⟩, -, -, -⟩ := hreadings readings s' h
  obtain rfl := (readLine_ended_iff hrest).mp hended
  exact ⟨readings, s', h, hended, by rw [hlines, Line.lines, List.append_nil]⟩

end CommandLine

end Treewalk
