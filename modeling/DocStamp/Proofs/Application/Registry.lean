/-
# The hooks of an application over whole runs

An application is used step by step: it is set up, hooks are connected
to points by name, documents pass through the hooks, and the application
is asked how many hooks it has.  One step adds at most the one hook that
it registers, and never changes the configuration (`step_eq`).  So a run
leaves the hooks of its steps behind, in order (`run_eq`), and what is
answered at any moment is known from the steps so far
(`run_answers_registered`).

A point enters the registry with its first hook and never without one.
So the summary, which shows what is listed, shows a point exactly if it
has hooks (`Registry.ofHooks_eq`).
-/
import DocStamp.Application

namespace DocStamp

theorem ExtensionPoint.parse_eq (name : String) :
    ExtensionPoint.parse name =
      if name = "source-read" then .ok .sourceRead else .error ⟨name⟩ := by
  by_cases h : name = "source-read"
  · subst h
    rfl
  · have hnone : ExtensionPoint.labels.get? name = none := by
      simp [ExtensionPoint.labels, Labels.get?, h]
    rw [if_neg h, ExtensionPoint.parse, hnone]

/-! ## The registry -/

namespace Registry

theorem hooksAt_add (registry : Registry) (point : ExtensionPoint) (hook : Hook) :
    (registry.add point hook).hooksAt point = registry.hooksAt point ++ [hook] := by
  induction registry with
  | nil => simp [add, hooksAt]
  | cons entry registry ih =>
      obtain ⟨first, hooks⟩ := entry
      by_cases hfirst : first = point
      · subst hfirst
        simp [add, hooksAt]
      · have hne : (point == first) = false := beq_eq_false_iff_ne.2 (Ne.symm hfirst)
        have hskip (rest : Registry) : hooksAt ((first, hooks) :: rest) point = rest.hooksAt point := by
          rw [hooksAt, List.lookup_cons, hne]
          rfl
        rw [add, if_neg hfirst, hskip, hskip, ih]

/-- What is left behind by hooks that are connected one after the other. -/
def ofHooks (hooks : List Hook) : Registry :=
  hooks.foldl (fun registry hook => add .sourceRead hook registry) []

theorem ofHooks_concat (hooks : List Hook) (hook : Hook) :
    ofHooks (hooks ++ [hook]) = (ofHooks hooks).add .sourceRead hook := by
  rw [ofHooks, List.foldl_append]
  rfl

theorem foldl_add (before hooks : List Hook) :
    hooks.foldl (fun registry hook => add .sourceRead hook registry) [(.sourceRead, before)] =
      [(.sourceRead, before ++ hooks)] := by
  induction hooks generalizing before with
  | nil => simp
  | cons hook hooks ih =>
      rw [List.foldl_cons, add, if_pos rfl, ih, List.append_assoc]
      rfl

theorem ofHooks_eq (hooks : List Hook) :
    ofHooks hooks = if hooks.length = 0 then [] else [(.sourceRead, hooks)] := by
  cases hooks with
  | nil => rfl
  | cons hook hooks => exact foldl_add [hook] hooks

theorem hooksAt_ofHooks (hooks : List Hook) : (ofHooks hooks).hooksAt .sourceRead = hooks := by
  rw [ofHooks_eq]
  cases hooks with
  | nil => rfl
  | cons hook hooks => rfl

end Registry

namespace Application

open Registry (ofHooks ofHooks_concat hooksAt_ofHooks)

/-! ## Steps and their answers -/

/-- A use of an application. -/
inductive Step where
  | setup
  /-- Connects a hook to the point with a name, which may be unknown. -/
  | connect (point : String) (hook : Hook)
  | emit (docname source : String)
  | count
  | debug

inductive Answer where
  | done
  | count (n : Nat)
  | unknown (error : ExtensionPoint.Unknown)
  | text (source : String)
  | summary (line : String)
deriving DecidableEq

def step (app : Application) : Step → Answer × Application
  | .setup => (.done, app.setup)
  | .connect name hook =>
      match ExtensionPoint.parse name with
      | .ok point =>
          let app := app.connect point hook
          (.count (app.handlerCount point), app)
      | .error unknown => (.unknown unknown, app)
  | .emit docname source => (.text (app.emit docname source), app)
  | .count => (.count (app.handlerCount .sourceRead), app)
  | .debug => (.summary app.summary, app)

/-- Does steps in order, and gives their answers. -/
def run (app : Application) : List Step → List Answer × Application
  | [] => ([], app)
  | s :: steps =>
      let (answer, app) := app.step s
      let (answers, app) := app.run steps
      (answer :: answers, app)

/-- The hook that a step registers, if it does. -/
def Step.hook? (config : Config) : Step → Option Hook
  | .setup => some (stampHook config.versions.plugin config.versions.server)
  | .connect name hook => if name = "source-read" then some hook else none
  | .emit _ _ | .count | .debug => none

/-- Is this a setup, or a connection to a point that is known? -/
def Step.registers : Step → Bool
  | .setup => true
  | .connect name _ => name == "source-read"
  | .emit _ _ | .count | .debug => false

def registered (config : Config) (steps : List Step) : List Hook :=
  steps.filterMap (Step.hook? config)

/-- The hooks one after the other, each called with the same view and document name. -/
def through (view : View) (docname : String) (hooks : List Hook) : String → String :=
  hooks.foldl (fun before hook => hook view docname ∘ before) id

/-- What a step answers when some hooks have been registered. -/
def answer (config : Config) (hooks : List Hook) : Step → Answer
  | .setup => .done
  | .connect name _ =>
      if name = "source-read" then .count (hooks.length + 1) else .unknown ⟨name⟩
  | .emit docname source => .text (through ⟨config, hooks.length⟩ docname hooks source)
  | .count => .count hooks.length
  | .debug => .summary (if hooks.length = 0 then "[]" else s!"[(\"source-read\", {hooks.length})]")

/-! ## One step -/

theorem foldl_comp (view : View) (docname : String) (hooks : List Hook) (before : String → String)
    (source : String) :
    hooks.foldl (fun before hook => hook view docname ∘ before) before source =
      hooks.foldl (fun text hook => hook view docname text) (before source) := by
  induction hooks generalizing before with
  | nil => rfl
  | cons hook hooks ih => exact ih (hook view docname ∘ before)

section

variable (config : Config) (hooks : List Hook)

theorem handlerCount_ofHooks (point : ExtensionPoint) :
    handlerCount ⟨config, ofHooks hooks⟩ point = hooks.length := by
  cases point
  rw [handlerCount, hooksAt_ofHooks]

theorem connect_ofHooks (hook : Hook) :
    connect ⟨config, ofHooks hooks⟩ .sourceRead hook = ⟨config, ofHooks (hooks ++ [hook])⟩ := by
  rw [connect, ofHooks_concat]

theorem emit_ofHooks (docname source : String) :
    emit ⟨config, ofHooks hooks⟩ docname source =
      through ⟨config, hooks.length⟩ docname hooks source := by
  rw [emit, view, handlerCount_ofHooks, hooksAt_ofHooks]
  exact (foldl_comp _ docname hooks id source).symm

theorem summary_ofHooks :
    summary ⟨config, ofHooks hooks⟩ =
      if hooks.length = 0 then "[]" else s!"[(\"source-read\", {hooks.length})]" := by
  have hname : Text.quote ExtensionPoint.sourceRead.name = "\"source-read\"" := by decide
  rw [summary, Registry.ofHooks_eq]
  cases hooks with
  | nil => rfl
  | cons hook hooks =>
      rw [← String.toList_inj]
      simp [hname, toString]

end

theorem isSome_hook? (config : Config) (s : Step) : (s.hook? config).isSome = s.registers := by
  cases s with
  | connect name hook => by_cases h : name = "source-read" <;> simp [Step.hook?, Step.registers, h]
  | setup | emit | count | debug => rfl

/-- All that a step does: it answers by the hooks that there are, and adds the one that it
registers. -/
theorem step_eq (config : Config) (hooks : List Hook) (s : Step) :
    step ⟨config, ofHooks hooks⟩ s = (answer config hooks s,
      ⟨config, ofHooks (hooks ++ (s.hook? config).toList)⟩) := by
  cases s with
  | setup => simp [step, setup, answer, Step.hook?, connect_ofHooks]
  | connect name hook =>
      rw [step, ExtensionPoint.parse_eq]
      by_cases h : name = "source-read"
      · simp [h, answer, Step.hook?, connect_ofHooks, handlerCount_ofHooks]
      · simp [h, answer, Step.hook?]
  | emit docname source => simp [step, answer, Step.hook?, emit_ofHooks]
  | count => simp [step, answer, Step.hook?, handlerCount_ofHooks]
  | debug => simp [step, answer, Step.hook?, summary_ofHooks]

/-! ## Any number of steps -/

/-- The answers of a run, by the hooks that were there before it. -/
def answers (config : Config) : List Hook → List Step → List Answer
  | _, [] => []
  | hooks, s :: steps =>
      answer config hooks s :: answers config (hooks ++ (s.hook? config).toList) steps

theorem run_eq (config : Config) (hooks : List Hook) (steps : List Step) :
    run ⟨config, ofHooks hooks⟩ steps = (answers config hooks steps,
      ⟨config, ofHooks (hooks ++ registered config steps)⟩) := by
  induction steps generalizing hooks with
  | nil => simp [run, answers, registered]
  | cons s steps ih =>
      simp only [run, step_eq, ih]
      cases h : s.hook? config <;> simp [answers, registered, h]

theorem run_new (config : Config) (steps : List Step) :
    (new config).run steps =
      (answers config [] steps, ⟨config, ofHooks (registered config steps)⟩) :=
  run_eq config [] steps

theorem answers_append (config : Config) (hooks : List Hook) (before later : List Step) :
    answers config hooks (before ++ later) =
      answers config hooks before ++ answers config (hooks ++ registered config before) later := by
  induction before generalizing hooks with
  | nil => simp [answers, registered]
  | cons s before ih =>
      rw [List.cons_append, answers, ih, answers]
      cases h : s.hook? config <;> simp [registered, h]

theorem length_answers (config : Config) (hooks : List Hook) (steps : List Step) :
    (answers config hooks steps).length = steps.length := by
  induction steps generalizing hooks with
  | nil => rfl
  | cons s steps ih => rw [answers, List.length_cons, ih, List.length_cons]

theorem length_registered (config : Config) (steps : List Step) :
    (registered config steps).length = steps.countP Step.registers := by
  induction steps with
  | nil => rfl
  | cons s steps ih =>
      have hs := isSome_hook? config s
      rw [registered] at ih ⊢
      cases h : s.hook? config with
      | none =>
          rw [h] at hs
          rw [List.filterMap_cons_none h, ih, List.countP_cons_of_neg (by simp [← hs])]
      | some hook =>
          rw [h] at hs
          rw [List.filterMap_cons_some h, List.length_cons, ih, List.countP_cons_of_pos hs.symm]

/-- What a run answers to one of its steps. -/
def answerAt (config : Config) (before : List Step) (s : Step) (later : List Step) :
    Option Answer :=
  ((new config).run (before ++ s :: later)).1[before.length]?

theorem answerAt_eq (config : Config) (before : List Step) (s : Step) (later : List Step) :
    answerAt config before s later = some (answer config (registered config before) s) := by
  have hlen := length_answers config [] before
  rw [answerAt, run_new, answers_append, ← hlen, List.getElem?_append_right (Nat.le_refl _),
    Nat.sub_self, List.nil_append]
  rfl

/-- At every moment of a run the number of hooks is that of the setups and of the connections
to a known point so far.  It is what a connection answers, counting itself, and what the
summary shows unless it is zero.  A document passes through all hooks so far in the order of
their registration, each called once, with its name and the configuration that the
application began with.  A step that registers no hook can be left out without changing any
later answer. -/
theorem run_answers_registered (config : Config) (before later : List Step) :
    let n := before.countP Step.registers
    let hooks := registered config before
    hooks.length = n ∧
    (∀ point, ((new config).run before).2.handlerCount point = n) ∧
    ((new config).run before).2.config = config ∧
    answerAt config before .count later = some (.count n) ∧
    (∀ name hook, answerAt config before (.connect name hook) later =
      some (if name = "source-read" then .count (n + 1) else .unknown ⟨name⟩)) ∧
    answerAt config before .debug later =
      some (.summary (if n = 0 then "[]" else s!"[(\"source-read\", {n})]")) ∧
    (∀ docname source, answerAt config before (.emit docname source) later =
      some (.text (through ⟨config, n⟩ docname hooks source))) ∧
    ∀ s : Step, s.registers = false →
      ((new config).run (before ++ s :: later)).1.drop (before.length + 1) =
        ((new config).run (before ++ later)).1.drop before.length := by
  intro n hooks
  have hn : hooks.length = n := length_registered config before
  refine ⟨hn, ?_, ?_, ?_, ?_, ?_, ?_, ?_⟩
  · intro point
    rw [run_new, handlerCount_ofHooks, ← hn]
  · rw [run_new]
  · rw [answerAt_eq, answer, ← hn]
  · intro name hook
    rw [answerAt_eq, answer, ← hn]
  · rw [answerAt_eq, answer, ← hn]
  · intro docname source
    rw [answerAt_eq, answer, ← hn]
  · intro s hs
    have hlen := length_answers config [] before
    have hnone : s.hook? config = none := by
      rw [← Option.not_isSome_iff_eq_none, isSome_hook?, hs]
      exact Bool.false_ne_true
    rw [run_new, run_new, answers_append, answers_append, answers, hnone, ← hlen,
      List.drop_left, ← List.drop_drop, List.drop_left]
    simp

/-- The default settings with two versions. -/
def plainConfig : Config := ⟨⟨"docs"⟩, ⟨"pom.xml"⟩, .default, ⟨"1", "1", "2"⟩⟩

/-- Puts the document name, the version and the number of hooks in front of the text. -/
def tellingHook : Hook := fun view docname source =>
  docname ++ "@" ++ view.config.versions.plugin ++ "/" ++ toString view.handlers ++ ":" ++ source

/-- A run with two registrations, an unknown point and a question. -/
def mixedSteps : List Step :=
  [.setup, .connect "doctree-read" tellingHook, .count, .connect "source-read" tellingHook]

/-- The document is stamped first and then told of, and the summary changes nothing. -/
theorem run_answers_registered_mixed :
    mixedSteps.countP Step.registers = 2 ∧
    answerAt plainConfig mixedSteps (.connect "source-read" tellingHook) [] = some (.count 3) ∧
    answerAt plainConfig mixedSteps (.emit "index" Placeholder.server) [] =
      some (.text "index@1/2:2") ∧
    Step.debug.registers = false ∧
    ((new plainConfig).run (mixedSteps ++ [.debug, .count])).1.drop 5 =
      ((new plainConfig).run (mixedSteps ++ [.count])).1.drop 4 := by
  obtain ⟨-, -, -, -, hconnect, -, hemit, -⟩ := run_answers_registered plainConfig mixedSteps []
  obtain ⟨-, -, -, -, -, -, -, hsame⟩ := run_answers_registered plainConfig mixedSteps [.count]
  have htext : through ⟨plainConfig, 2⟩ "index" (registered plainConfig mixedSteps)
      Placeholder.server = "index@1/2:2" := by
    decide +kernel
  refine ⟨rfl, hconnect "source-read" tellingHook, ?_, rfl, hsame .debug rfl⟩
  exact (hemit "index" Placeholder.server).trans (congrArg (some ∘ Answer.text) htext)

end Application

end DocStamp
