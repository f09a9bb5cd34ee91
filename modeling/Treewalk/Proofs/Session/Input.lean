import Treewalk.Proofs.Session.Confinement
import Treewalk.Proofs.Text.Lines

/-!
# Lines that programs take off the input

Of all that happens in a run only the built-in function that reads a line changes the input, and it
takes the first line off it. So the readings along the course of a run take the lines of the input one
after the other, until there is none left, and from then on find the end of the input.

## Main definitions

* `Reading`, `Reading.line?`: a line is taken off the input by a prompt or by a program.
* `Takes`: readings that take the lines of a text one after the other.
* `Session.Logged`: the moments of the run of a text.

## Main results

* `Takes.lines_eq`: the lines that are taken, and those that are left.
* `Course.takes`, `Session.Logged.takes`: the readings of a run.
* `Reading.run_readLine`: what a program gets for a line.
-/

namespace Treewalk

/-- Who takes a line off the input. -/
inductive Taker
  /-- A prompt. -/
  | prompt
  /-- The program that is run. -/
  | program
  deriving DecidableEq

/-- A line is taken off the input, or found missing. -/
structure Reading where
  /-- Who takes it. -/
  taker : Taker
  /-- The machine just before that. -/
  machine : Machine

/-- The line that is taken, its ending included; none if no text is taken, as at the end of the
input. -/
def Reading.line? (r : Reading) : Option (List Char) :=
  match (Line.read r.machine.input).1 with
  | .text line => some line.toList
  | _ => none

/-- The reading at a moment of a run, if there is one. -/
def Moment.reading? (p : Moment) : Option Reading :=
  match p.event with
  | .native .readLine _ _ => some ⟨.program, p.machine⟩
  | _ => none

/-! ### Readings one after the other -/

/-- Readings take the lines of a text one after the other and leave another text. -/
inductive Takes : List Char → List Reading → List Char → Prop
  /-- No reading. -/
  | done (cs : List Char) : Takes cs [] cs
  /-- The first line is taken. -/
  | line {cs line rest left : List Char} {r : Reading} {readings : List Reading}
      (hinput : r.machine.input = Utf8.encode cs) (hne : line ≠ [])
      (hlines : Line.lines cs = line :: Line.lines rest)
      (hread : Line.read r.machine.input = (.text (String.ofList line), Utf8.encode rest))
      (later : Takes rest readings left) : Takes cs (r :: readings) left
  /-- There is no line left. -/
  | ended {r : Reading} {readings : List Reading} {left : List Char} (hinput : r.machine.input = [])
      (later : Takes [] readings left) : Takes [] (r :: readings) left

namespace Takes

variable {cs rest left : List Char} {readings readings' : List Reading} {r : Reading}

theorem append (h : Takes cs readings rest) (h' : Takes rest readings' left) :
    Takes cs (readings ++ readings') left := by
  induction h with
  | done => exact h'
  | line hinput hne hlines hread _ ih => exact .line hinput hne hlines hread (ih h')
  | ended hinput _ ih => exact .ended hinput (ih h')

/-- The next reading takes the first line, or finds that there is none. -/
theorem exists_single (hinput : r.machine.input = Utf8.encode cs) :
    ∃ rest, (Line.read r.machine.input).2 = Utf8.encode rest ∧ Takes cs [r] rest := by
  by_cases hcs : cs = []
  · subst hcs
    exact ⟨[], by rw [hinput]; rfl, .ended hinput (.done [])⟩
  · obtain ⟨line, rest, hne, hlines, hread⟩ := Line.read_encode hcs
    rw [← hinput] at hread
    exact ⟨rest, by rw [hread], .line hinput hne hlines hread (.done rest)⟩

theorem line?_of_read {line rest : List Char}
    (hread : Line.read r.machine.input = (.text (String.ofList line), Utf8.encode rest)) :
    r.line? = some line := by
  rw [Reading.line?, hread]
  exact congrArg some String.toList_ofList

theorem line?_of_ended (hinput : r.machine.input = []) : r.line? = none := by
  rw [Reading.line?, hinput]
  rfl

/-- The lines that are taken, in order, and those that are left are all lines. -/
theorem lines_eq (h : Takes cs readings rest) :
    Line.lines cs = readings.filterMap Reading.line? ++ Line.lines rest := by
  induction h with
  | done => rfl
  | line _ _ hlines hread _ ih =>
    rw [hlines, List.filterMap_cons_some (line?_of_read hread), List.cons_append, ih]
  | ended hinput _ ih => rw [List.filterMap_cons_none (line?_of_ended hinput), ih]

/-- What is left is an end of the text. -/
theorem suffix (h : Takes cs readings rest) : rest <:+ cs := by
  have hcs := congrArg List.flatten h.lines_eq
  rw [Line.flatten_lines, List.flatten_append, Line.flatten_lines] at hcs
  exact ⟨_, hcs.symm⟩

/-- A reading stands before a text. -/
theorem exists_input (h : Takes cs readings rest) :
    ∀ r ∈ readings, ∃ text, r.machine.input = Utf8.encode text := by
  induction h with
  | done => exact fun r hr => absurd hr List.not_mem_nil
  | line hinput _ _ _ _ ih => exact List.forall_mem_cons.mpr ⟨⟨_, hinput⟩, ih⟩
  | ended hinput _ ih => exact List.forall_mem_cons.mpr ⟨⟨[], hinput⟩, ih⟩

/-- A reading before a text finds no line just if there is no input left. -/
theorem line?_eq_none_iff (hinput : r.machine.input = Utf8.encode cs) :
    r.line? = none ↔ r.machine.input = [] := by
  refine ⟨fun hnone => ?_, line?_of_ended⟩
  by_contra hne
  have hcs : cs ≠ [] := by
    rintro rfl
    exact hne hinput
  obtain ⟨line, rest, -, -, hread⟩ := Line.read_encode hcs
  rw [← hinput] at hread
  rw [line?_of_read hread] at hnone
  cases hnone

theorem line?_of_nil (h : Takes [] readings rest) : ∀ r ∈ readings, r.line? = none := by
  generalize hcs : ([] : List Char) = cs at h
  induction h with
  | done => exact fun r hr => absurd hr List.not_mem_nil
  | line _ _ hlines =>
    subst hcs
    cases hlines
  | ended hinput _ ih => exact List.forall_mem_cons.mpr ⟨line?_of_ended hinput, ih rfl⟩

/-- After the end of the input has been found no line is taken any more. -/
theorem pairwise_line? (h : Takes cs readings rest) :
    readings.Pairwise fun p q => p.line? = none → q.line? = none := by
  induction h with
  | done => exact .nil
  | line _ _ _ hread _ ih =>
    refine .cons (fun q _ hnone => ?_) ih
    rw [line?_of_read hread] at hnone
    cases hnone
  | ended _ later ih => exact .cons (fun q hq _ => later.line?_of_nil q hq) ih

end Takes

/-! ### What a program gets -/

/-- A program that reads before a text gets the first line without line feeds and carriage returns at
its end, or nil if there is no line left. -/
theorem Reading.run_readLine {r : Reading} {cs : List Char}
    (hinput : r.machine.input = Utf8.encode cs) (arguments : List Value) (line : Nat) :
    ∃ v m', Native.readLine.run arguments line r.machine = .ok v m' ∧
      (r.line? = none → v = .nil) ∧
      ∀ taken, r.line? = some taken → ∃ (t : String) (ending : List Char),
        v = .string t ∧ taken = t.toList ++ ending ∧ (∀ c ∈ ending, c = '\n' ∨ c = '\r') ∧
          ∀ c, t.toList.getLast? = some c → c ≠ '\n' ∧ c ≠ '\r' := by
  have hrun : Native.readLine.run arguments line r.machine =
      Run.lineValue line (Line.read r.machine.input).1
        { r.machine with input := (Line.read r.machine.input).2 } :=
    congrFun (Run.readLine_eq line) r.machine
  rw [hrun]
  by_cases hcs : cs = []
  · subst hcs
    rw [hinput]
    refine ⟨.nil, _, rfl, fun _ => rfl, fun taken htaken => ?_⟩
    rw [Takes.line?_of_ended hinput] at htaken
    cases htaken
  · obtain ⟨taken, rest, -, -, hread⟩ := Line.read_encode hcs
    rw [← hinput] at hread
    have hline := Takes.line?_of_read hread
    rw [hread, hline]
    refine ⟨.string (Line.trim (String.ofList taken)), _, rfl, fun h => ?_, fun other h => ?_⟩
    · cases h
    · cases h
      obtain ⟨ending, heq, hending, hlast⟩ := Line.exists_ending (String.ofList taken)
      rw [String.toList_ofList] at heq
      exact ⟨_, ending, rfl, heq, hending, hlast⟩

/-! ### The readings of a run -/

section Course

variable {met : Set Moment} {m m' : Machine} {log : List Moment} {cs : List Char}

theorem Action.input_eq (h : Action met m m') : m'.input = m.input := by
  cases h <;> rfl

/-- Only reading a line changes the input. -/
theorem Event.takes_next (event : Event) (hinput : m.input = Utf8.encode cs) :
    ∃ rest, (event.next m).input = Utf8.encode rest ∧
      Takes cs (Moment.reading? ⟨event, m⟩).toList rest := by
  cases event with
  | native n arguments line =>
    cases n with
    | readLine =>
      obtain ⟨rest, hrest, htakes⟩ := Takes.exists_single (r := ⟨.program, m⟩) hinput
      refine ⟨rest, ?_, htakes⟩
      have hafter := congrArg Machine.input (Run.after_readLine line m)
      exact hafter.trans hrest
    | clock | print | printLine => exact ⟨cs, hinput, .done cs⟩
  | call f arguments => exact ⟨cs, hinput, .done cs⟩
  | node node =>
    refine ⟨cs, ?_, .done cs⟩
    cases node with
    | stmt s => cases s <;> exact hinput
    | _ => exact hinput

/-- The readings of a run take the lines of the input one after the other. -/
theorem Course.takes (h : Course met m log m') (hinput : m.input = Utf8.encode cs) :
    ∃ rest, m'.input = Utf8.encode rest ∧ Takes cs (log.filterMap Moment.reading?) rest := by
  induction h generalizing cs with
  | done => exact ⟨cs, hinput, .done cs⟩
  | act h _ ih => exact ih (h.input_eq.trans hinput)
  | @event met m m₁ m' log log' event inner later ihInner ih =>
    obtain ⟨next, hnext, hfirst⟩ := event.takes_next hinput
    obtain ⟨rest, hrest, hinner⟩ := ihInner hnext
    obtain ⟨left, hleft, hlater⟩ := ih hrest
    refine ⟨left, hleft, ?_⟩
    have hreadings : (⟨event, m⟩ :: (log ++ log')).filterMap Moment.reading? =
        (Moment.reading? ⟨event, m⟩).toList ++ (log ++ log').filterMap Moment.reading? := by
      cases hreading : Moment.reading? ⟨event, m⟩ with
      | none => rw [List.filterMap_cons_none hreading]; rfl
      | some r => rw [List.filterMap_cons_some hreading]; rfl
    rw [hreadings, List.filterMap_append]
    exact hfirst.append (hinner.append hlater)

end Course

namespace Session

variable {s s' : Session} {fuel : Nat} {source : String} {status : Status} {log : List Moment}
  {cs : List Char}

/-- The moments of the run of a text in order: those of its program if the text is accepted, and none
otherwise. -/
inductive Logged (s : Session) (fuel : Nat) (source : String) : List Moment → Prop
  | accepted {body : List Stmt} {prepared : Session} {log : List Moment}
      (ha : s.Accepts source body prepared)
      (hlog : Run.Logs (fun watch => interpretWatched watch .resolved fuel body) prepared.machine log)
      (hcourse : Course ∅ prepared.machine log
        ((interpret .resolved fuel body).after prepared.machine)) :
    Logged s fuel source log
  | rejected (h : ∀ body prepared, ¬ s.Accepts source body prepared) : Logged s fuel source []

theorem exists_logged (s : Session) (fuel : Nat) (source : String) :
    ∃ log, s.Logged fuel source log := by
  by_cases haccepts : ∃ body prepared, s.Accepts source body prepared
  · obtain ⟨body, prepared, ha⟩ := haccepts
    obtain ⟨log, hlog, hcourse⟩ := exists_course .resolved fuel body prepared.machine
    exact ⟨log, .accepted ha hlog hcourse⟩
  · exact ⟨[], .rejected fun body prepared ha => haccepts ⟨body, prepared, ha⟩⟩

/-- The readings of a run take the lines of the input one after the other. -/
theorem Logged.takes (h : s.Logged fuel source log)
    (hrun : s.run fuel source = some (status, s')) (hinput : s.machine.input = Utf8.encode cs) :
    ∃ rest, s'.machine.input = Utf8.encode rest ∧ Takes cs (log.filterMap Moment.reading?) rest := by
  cases h with
  | accepted ha hlog hcourse =>
    rw [ha.machine_eq hrun] at hcourse
    have hprepared := congrArg (fun p => p.2.machine.input) ha.prepared_eq
    exact hcourse.takes (hprepared.symm.trans hinput)
  | rejected hrejected =>
    refine ⟨cs, ?_, .done cs⟩
    rcases eq_of_not_accepts hrejected hrun with rfl | rfl
    · exact hinput
    · exact hinput

end Session

end Treewalk
