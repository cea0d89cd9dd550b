import Mathlib.Data.List.DropRight
import MatrixCalc.Proofs.Eval.Effects
import MatrixCalc.Proofs.Session.Reachable

/-!
# The transcript of a session

Requests leave events behind: values that are recorded, empty programs and resets. The events follow
from the store and the trees alone (`Request.log`), without a session; a session keeps of them what
its results and its latest value show (`answer_transcript`).

1. `Tree.succeed` runs statements up to the first that fails, on a store. A failing statement leaves
   the store alone, because nothing below its root assigns.
2. `Session.Shows events s`: the results are the values since the last reset, and the latest value is
   that of the last event that recorded one, unless a reset or an empty program came behind it.
3. One value, one empty program and one reset keep this (`Shows.record`, `Shows.empty`,
   `shows_reset`), so programs do (`runAll_shows`), and requests (`answer_shows`), and all runs.
-/

namespace MatrixCalc

/-! ## Events -/

/-- What a request does to the record of a session. -/
inductive Event where
  /-- A statement has succeeded with a value. -/
  | recorded (v : Value)
  /-- A program without statements was run. -/
  | emptied
  /-- The session was reset. -/
  | reset

namespace Event

/-- The value that is recorded. -/
def value? : Event → Option Value
  | .recorded v => some v
  | .emptied | .reset => none

/-- The event is a reset. -/
def isReset : Event → Bool
  | .reset => true
  | .recorded _ | .emptied => false

/-- Behind the event there is no latest value. -/
def forgets : Event → Bool
  | .emptied | .reset => true
  | .recorded _ => false

/-- The values that were recorded since the last reset. -/
def sinceReset (events : List Event) : List Value :=
  (events.rtakeWhile (!·.isReset)).filterMap value?

/-- The values that were recorded since the last reset or empty program. -/
def sinceForgotten (events : List Event) : List Value :=
  (events.rtakeWhile (!·.forgets)).filterMap value?

theorem sinceReset_recorded (events : List Event) (v : Value) :
    sinceReset (events ++ [.recorded v]) = sinceReset events ++ [v] := by
  unfold sinceReset
  rw [List.rtakeWhile_concat_pos _ _ _ rfl, List.filterMap_append]
  rfl

theorem sinceReset_emptied (events : List Event) :
    sinceReset (events ++ [.emptied]) = sinceReset events := by
  unfold sinceReset
  rw [List.rtakeWhile_concat_pos _ _ _ rfl, List.filterMap_append]
  exact List.append_nil _

theorem sinceReset_reset (events : List Event) : sinceReset (events ++ [.reset]) = [] := by
  unfold sinceReset
  rw [List.rtakeWhile_concat_neg _ _ _ Bool.false_ne_true]
  rfl

theorem sinceForgotten_recorded (events : List Event) (v : Value) :
    sinceForgotten (events ++ [.recorded v]) = sinceForgotten events ++ [v] := by
  unfold sinceForgotten
  rw [List.rtakeWhile_concat_pos _ _ _ rfl, List.filterMap_append]
  rfl

theorem sinceForgotten_of_forgets (events : List Event) {e : Event} (h : e.forgets = true) :
    sinceForgotten (events ++ [e]) = [] := by
  unfold sinceForgotten
  rw [List.rtakeWhile_concat_neg _ _ _ (by rw [h]; exact Bool.false_ne_true)]
  rfl

end Event

/-- The values of statements up to the first that fails, and the store that those before it leave. -/
def Tree.succeed : List Tree → Store → List Value × Store
  | [], s => ([], s)
  | t :: ts, s =>
    match t.eval s with
    | (.ok v, s') => (v :: (succeed ts s').1, (succeed ts s').2)
    | (.error _, _) => ([], s)

namespace Request

/-- The events of statements that are run, and the store behind them. -/
def eventsOf (ts : List Tree) (s : Store) : List Event × Store :=
  ((Tree.succeed ts s).1.map .recorded, (Tree.succeed ts s).2)

/-- The events of a program, and the store behind it. -/
def programEvents (ts : List Tree) (s : Store) : List Event × Store :=
  if ts.isEmpty then ([.emptied], s) else eventsOf ts s

/-- The events of a request, and the store behind it. A text that does not parse has none, and the
value of an expression is not recorded. -/
def events : Request → Store → List Event × Store
  | .eval text, s =>
    match parseProgram text with
    | .ok ts => programEvents ts s
    | .error _ => ([], s)
  | .valueOf text, s =>
    match parseStatement text with
    | .ok (.assign name e) => eventsOf [.assign name e] s
    | _ => ([], s)
  | .run t, s => eventsOf [t] s
  | .merge ts, s => programEvents ts s
  | .reset, _ => ([.reset], .empty)

/-- The events of requests in order, and the store behind them. -/
def log : List Request → Store → List Event × Store
  | [], s => ([], s)
  | r :: rs, s => ((r.events s).1 ++ (log rs (r.events s).2).1, (log rs (r.events s).2).2)

/-- The trees of the request hold no assignment below their roots. -/
def IsFlat : Request → Prop
  | .run t => t.IsFlat
  | .merge ts => ∀ t ∈ ts, t.IsFlat
  | .eval _ | .valueOf _ | .reset => True

end Request

/-! ## Statements of texts are flat -/

namespace Tree

mutual
theorem targets_of_isExpression : ∀ (t : Tree), t.IsExpression → t.targets = []
  | .number _, _ => rfl
  | .variable _, _ => rfl
  | .signed _ t, h => targets_of_isExpression t h.2.1
  | .group t, h => targets_of_isExpression t h
  | .sum l r, h => by
    rw [targets, targets_of_isExpression l h.1, targets_of_isExpression r h.2.1, List.append_nil]
  | .subtract l r, h => by
    rw [targets, targets_of_isExpression l h.1, targets_of_isExpression r h.2.1, List.append_nil]
  | .array ts, h => targetsAll_of_areExpressions ts h.1
  | .matrix ts, h => targetsAll_of_areExpressions ts h
  | .determinant t, h => targets_of_isExpression t h
theorem targetsAll_of_areExpressions : ∀ (ts : List Tree), AreExpressions ts → targetsAll ts = []
  | [], _ => rfl
  | t :: ts, h => by
    rw [targetsAll, targets_of_isExpression t h.1, targetsAll_of_areExpressions ts h.2,
      List.append_nil]
end

theorem IsStatement.isFlat {t : Tree} (h : t.IsStatement) : t.IsFlat := by
  cases t with
  | assign name e => exact targets_of_isExpression e h.2
  | print e => exact targets_of_isExpression e h
  | _ => exact h.elim

end Tree

/-! ## What a session shows -/

namespace Session

/-- The results are the values since the last reset. The latest value is the last of those since the
last reset or empty program, and so the last of the results. -/
structure Shows (events : List Event) (s : Session) : Prop where
  results : s.results = Event.sinceReset events
  last : s.last = (Event.sinceForgotten events).getLast?
  agree : ∀ v, s.last = some v → s.results.getLast? = some v

theorem shows_ofStore (store : Store) : Shows [] (ofStore store) :=
  ⟨rfl, rfl, fun v hv => (by cases hv)⟩

theorem shows_reset (events : List Event) (s : Session) : Shows (events ++ [.reset]) s.reset := by
  refine ⟨?_, ?_, fun v hv => (by cases hv)⟩
  · rw [Event.sinceReset_reset]
    rfl
  · rw [Event.sinceForgotten_of_forgets _ rfl]
    rfl

section Step

variable {events : List Event} {s : Session} (h : Shows events s)

include h

theorem Shows.withStore (store : Store) : Shows events { s with store } :=
  ⟨h.results, h.last, h.agree⟩

theorem Shows.record (v : Value) : Shows (events ++ [.recorded v]) (s.record v) := by
  refine ⟨?_, ?_, ?_⟩
  · rw [Event.sinceReset_recorded, ← h.results]
    rfl
  · rw [Event.sinceForgotten_recorded, List.getLast?_concat]
    rfl
  · intro w hw
    cases hw
    exact List.getLast?_concat

theorem Shows.empty : Shows (events ++ [.emptied]) { s with last := none } := by
  refine ⟨?_, ?_, fun v hv => (by cases hv)⟩
  · rw [Event.sinceReset_emptied]
    exact h.results
  · rw [Event.sinceForgotten_of_forgets _ rfl]
    rfl

end Step

/-- Statements are run as far as they succeed, and a failure adds nothing. -/
theorem runAll_shows {events : List Event} {s : Session} {ts : List Tree} (h : Shows events s)
    (hts : ∀ t ∈ ts, t.IsFlat) :
    Shows (events ++ (Request.eventsOf ts s.store).1) (s.runAll ts).2 ∧
      (s.runAll ts).2.store = (Request.eventsOf ts s.store).2 := by
  induction ts generalizing events s with
  | nil =>
    refine ⟨?_, rfl⟩
    rw [show (Request.eventsOf [] s.store).1 = [] from rfl, List.append_nil]
    exact h
  | cons t ts ih =>
    rw [List.forall_mem_cons] at hts
    unfold Request.eventsOf Tree.succeed runAll run
    cases ht : t.eval s.store with
    | mk r store =>
      cases r with
      | ok v =>
        obtain ⟨hshows, hstore⟩ := ih ((h.withStore store).record v) hts.2
        refine ⟨?_, hstore⟩
        rw [List.append_assoc] at hshows
        exact hshows
      | error f =>
        have hsame := Tree.eval_error_of_isFlat hts.1 ht
        refine ⟨?_, hsame⟩
        rw [List.map_nil, List.append_nil]
        exact h.withStore store

theorem session_run (s : Session) (t : Tree) : (s.runAll [t]).2 = (s.run t).2 := by
  unfold runAll
  split
  · rename_i heq
    rw [heq]
    rfl
  · rename_i heq
    rw [heq]

theorem merge_shows {events : List Event} {s : Session} {ts : List Tree} (h : Shows events s)
    (hts : ∀ t ∈ ts, t.IsFlat) :
    Shows (events ++ (Request.programEvents ts s.store).1) (s.merge ts).2 ∧
      (s.merge ts).2.store = (Request.programEvents ts s.store).2 := by
  cases ts with
  | nil => exact ⟨h.empty, rfl⟩
  | cons t ts => exact runAll_shows h hts

theorem evalText_shows {events : List Event} {s : Session} (h : Shows events s) (text : String) :
    Shows (events ++ (Request.events (.eval text) s.store).1) (s.evalText text).2 ∧
      (s.evalText text).2.store = (Request.events (.eval text) s.store).2 := by
  cases hparse : parseProgram text with
  | error e =>
    rw [Request.events, evalText, hparse]
    refine ⟨?_, rfl⟩
    rw [List.append_nil]
    exact h
  | ok ts =>
    rw [session_evalText s hparse, Request.events, hparse]
    exact merge_shows h fun t ht => (isStatement_of_parseProgram hparse t ht).isFlat

theorem valueOf_shows {events : List Event} {s : Session} (h : Shows events s) (text : String) :
    Shows (events ++ (Request.events (.valueOf text) s.store).1) (s.valueOf text).2 ∧
      (s.valueOf text).2.store = (Request.events (.valueOf text) s.store).2 := by
  rw [Request.events, valueOf]
  cases hparse : parseStatement text with
  | error e =>
    refine ⟨?_, rfl⟩
    rw [List.append_nil]
    exact h
  | ok t =>
    have ht := isStatement_of_parseStatement hparse
    cases t with
    | assign name e =>
      have hrun := runAll_shows h (List.forall_mem_singleton.2 ht.isFlat)
      rw [session_run] at hrun
      exact hrun
    | print e =>
      refine ⟨?_, Tree.eval_of_targets (Tree.targets_of_isExpression e ht) s.store⟩
      rw [List.append_nil]
      exact h.withStore _
    | _ => exact ht.elim

theorem answer_shows {events : List Event} {s : Session} (h : Shows events s) (r : Request)
    (hr : r.IsFlat) : Shows (events ++ (r.events s.store).1) (s.answer r).2 ∧
      (s.answer r).2.store = (r.events s.store).2 := by
  cases r with
  | eval text => exact evalText_shows h text
  | valueOf text => exact valueOf_shows h text
  | run t =>
    have hrun := runAll_shows h (List.forall_mem_singleton.2 hr)
    rw [session_run] at hrun
    exact hrun
  | merge ts => exact merge_shows h hr
  | reset => exact ⟨shows_reset events s, rfl⟩

/-- The session after requests, whether they fail or not. -/
def answerAll (s : Session) (requests : List Request) : Session :=
  requests.foldl (fun s r => (s.answer r).2) s

theorem answerAll_shows {events : List Event} {s : Session} (h : Shows events s)
    (requests : List Request) (hr : ∀ r ∈ requests, r.IsFlat) :
    Shows (events ++ (Request.log requests s.store).1) (s.answerAll requests) ∧
      (s.answerAll requests).store = (Request.log requests s.store).2 := by
  induction requests generalizing events s with
  | nil =>
    refine ⟨?_, rfl⟩
    rw [show (Request.log [] s.store).1 = [] from rfl, List.append_nil]
    exact h
  | cons r rs ih =>
    rw [List.forall_mem_cons] at hr
    obtain ⟨hshows, hstore⟩ := answer_shows h r hr.1
    have hrest := ih hshows hr.2
    rw [hstore, List.append_assoc] at hrest
    exact hrest

/-- **Transcript.** After any requests, from any store and with failures anywhere, the results are the
values of the statements that succeeded since the last reset, in order. There is no latest value if
and only if none was recorded since the start, the last reset and the last empty program; otherwise
it is the last of the results. -/
theorem answer_transcript (store : Store) (requests : List Request)
    (h : ∀ r ∈ requests, r.IsFlat) :
    let s := (ofStore store).answerAll requests
    let log := Request.log requests store
    s.store = log.2 ∧ s.results = Event.sinceReset log.1 ∧
      (s.last = none ↔ Event.sinceForgotten log.1 = []) ∧
      ∀ v, s.last = some v → s.results.getLast? = some v := by
  intro s log
  obtain ⟨hshows, hstore⟩ := answerAll_shows (shows_ofStore store) requests h
  refine ⟨hstore, hshows.results, ?_, hshows.agree⟩
  rw [hshows.last, List.getLast?_eq_none_iff]
  rfl

/-- A failure inside a program, an empty program, a text that does not parse and a value that is only
asked for, before a reset and behind it. -/
theorem answer_transcript_failing :
    let requests : List Request := [.eval "x = 1; y; x = 2", .valueOf "x + x", .eval "x +", .merge [],
      .run (.print (.variable "x")), .reset, .merge [.assign "y" (.number "3"), .print (.variable "x")]]
    let s := (ofStore .empty).answerAll requests
    let log := Request.log requests .empty
    (∀ r ∈ requests, r.IsFlat) ∧ s.store = log.2 ∧ s.results = Event.sinceReset log.1 ∧
      (s.last = none ↔ Event.sinceForgotten log.1 = []) ∧
      ∀ v, s.last = some v → s.results.getLast? = some v := by
  intro requests s log
  have h : ∀ r ∈ requests, r.IsFlat := by
    simp [requests, Request.IsFlat, Tree.IsFlat, Tree.targets]
  exact ⟨h, answer_transcript .empty requests h⟩

end Session

end MatrixCalc
