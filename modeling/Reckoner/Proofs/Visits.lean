/-
Which nodes an evaluation visits, and at which one it fails.

A place in a tree is the way to it from the root: the numbers of the parts to go into. The log of an evaluation says
what happened, but not at which nodes. `Expr.log` is this log with the place of the node at each event: without the
places it is the log (`map_log`), each visit is of the node that it names (`exists_at_of_mem_log`), and places are
visited in their order (`log_ordered`).

Of a node, evaluation goes into certain parts, one after the other (`Expr.entered`).
- `run_replace`: what is not visited does not matter;
- `evaluate_of_error`, `entered_of_error`: an error in a part is the error of the node, and no other part is evaluated
  after it;
- `applies_or_entered`: any other error of a node is one of applying its operator to the values of all its operands.
So the errors of the visited nodes lie on one way down from the root, and at its end an operator rejects its operands
(`exists_rejection`).

Main statement: `visits_decide_result`.
-/
import Mathlib.Tactic
import Reckoner.Expr.Eval

namespace Reckoner

theorem Run.andThen_congr {r : Run} {next next' : Value → Run} (h : ∀ v, r.result = .ok v → next v = next' v) :
    r.andThen next = r.andThen next' := by
  unfold Run.andThen
  split
  · next v hv => rw [h v hv]
  · rfl

namespace Expr

/-! ## Places -/

def at? : Expr → List Nat → Option Expr
  | e, [] => some e
  | e, i :: p => e.parts[i]?.bind (·.at? p)

/-- a tree with one of its parts changed -/
def mapPart (g : Expr → Expr) : Expr → Nat → Expr
  | .grouping a, 0 => .grouping (g a)
  | .unary f a, 0 => .unary f (g a)
  | .binary a f b, 0 => .binary (g a) f b
  | .binary a f b, 1 => .binary a f (g b)
  | .ternary a b c, 0 => .ternary (g a) b c
  | .ternary a b c, 1 => .ternary a (g b) c
  | .ternary a b c, 2 => .ternary a b (g c)
  | e, _ => e

/-- a tree with another tree at a place; without that place it stays as it is -/
def replace : Expr → List Nat → Expr → Expr
  | _, [], s => s
  | e, i :: p, s => e.mapPart (·.replace p s) i

theorem getElem?_parts_mapPart (g : Expr → Expr) (e : Expr) (i : Nat) :
    (e.mapPart g i).parts[i]? = e.parts[i]?.map g := by
  cases e <;> rcases i with _ | _ | _ | i <;> rfl

theorem at?_replace {e n : Expr} {p : List Nat} (h : e.at? p = some n) (s : Expr) : (e.replace p s).at? p = some s := by
  induction p generalizing e with
  | nil => rfl
  | cons i p ih =>
    obtain ⟨a, ha, hn⟩ := Option.bind_eq_some_iff.1 h
    rw [replace, at?, getElem?_parts_mapPart, ha]
    exact ih hn

/-! ## The parts that are evaluated -/

/-- what comes after a value; after an error comes nothing -/
def onValue {α : Type} (r : Result) (next : Value → List α) : List α :=
  match r with
  | .ok v => next v
  | .error _ => []

theorem mem_onValue {α : Type} {r : Result} {next : Value → List α} {x : α} :
    x ∈ onValue r next ↔ ∃ v, r = .ok v ∧ x ∈ next v := by
  cases r <;> simp [onValue]

/-- the parts of a node that are evaluated, with their numbers, in order -/
def entered : Expr → List (Nat × Expr)
  | .literal _ => []
  | .grouping a | .unary _ a => [(0, a)]
  | .binary a f b => (0, a) :: onValue a.evaluate fun v => if v.decides f.kind then [] else [(1, b)]
  | .ternary a b c => (0, a) :: onValue a.evaluate fun v => if v.isTruthy then [(1, b)] else [(2, c)]

/-- what is logged of a node after its parts -/
def closing : Expr → List Event
  | .binary a f b =>
    if f.kind = .or || f.kind = .and then []
    else onValue a.evaluate fun v => onValue b.evaluate fun w => [.applied f.lexeme v.typeName w.typeName]
  | _ => []

section
variable {e a b c : Expr} {f : Token} {i : Nat} {v : Value} {err : RuntimeError}

theorem entered_binary_of_ok (b : Expr) (f : Token) (ha : a.evaluate = .ok v) :
    (binary a f b).entered = if v.decides f.kind then [(0, a)] else [(0, a), (1, b)] := by
  simp only [entered, ha, onValue]
  split <;> rfl

theorem entered_binary_of_error (b : Expr) (f : Token) (ha : a.evaluate = .error err) :
    (binary a f b).entered = [(0, a)] := by
  simp only [entered, ha, onValue]

theorem entered_ternary_of_ok (b c : Expr) (ha : a.evaluate = .ok v) :
    (ternary a b c).entered = if v.isTruthy then [(0, a), (1, b)] else [(0, a), (2, c)] := by
  simp only [entered, ha, onValue]
  split <;> rfl

theorem entered_ternary_of_error (b c : Expr) (ha : a.evaluate = .error err) : (ternary a b c).entered = [(0, a)] := by
  simp only [entered, ha, onValue]

/-- parts are evaluated from left to right, and some of them are not -/
theorem entered_sublist (e : Expr) : e.entered.Sublist (e.parts.mapIdx Prod.mk) := by
  cases e with
  | literal c | grouping a | unary f a => exact List.Sublist.refl _
  | binary a f b =>
    refine List.Sublist.cons_cons (0, a) ?_
    cases a.evaluate with
    | error err => exact List.nil_sublist _
    | ok v =>
      simp only [onValue]
      split
      · exact List.nil_sublist _
      · exact List.Sublist.refl _
  | ternary a b c =>
    refine List.Sublist.cons_cons (0, a) ?_
    cases a.evaluate with
    | error err => exact List.nil_sublist _
    | ok v =>
      simp only [onValue]
      split
      · exact List.sublist_append_left [(1, b)] [(2, c)]
      · exact List.sublist_append_right [(1, b)] [(2, c)]

theorem part_of_entered (h : (i, a) ∈ e.entered) : e.parts[i]? = some a := by
  obtain ⟨j, hj, heq⟩ := List.mem_mapIdx.1 (e.entered_sublist.subset h)
  cases heq
  exact List.getElem?_eq_getElem hj

theorem sizeOf_lt_of_mem_parts (h : a ∈ e.parts) : sizeOf a < sizeOf e := by
  cases e <;> simp only [parts, List.mem_cons, List.not_mem_nil, or_false] at h
  case grouping | unary =>
    subst h
    simp
  case binary => rcases h with rfl | rfl <;> simp only [binary.sizeOf_spec] <;> omega
  case ternary => rcases h with rfl | rfl | rfl <;> simp only [ternary.sizeOf_spec] <;> omega

/-- the error of a part is that of the node -/
theorem evaluate_of_error (h : (i, a) ∈ e.entered) (ha : a.evaluate = .error err) : e.evaluate = .error err := by
  cases e with
  | literal c => cases h
  | grouping b | unary f b =>
    cases List.mem_singleton.1 h
    simp [evaluate_grouping, evaluate_unary, ha, Except.bind]
  | binary b f c =>
    rcases List.mem_cons.1 h with h | h
    · cases h
      simp [evaluate_binary, ha, Except.bind]
    · obtain ⟨v, hb, h⟩ := mem_onValue.1 h
      split at h
      · cases h
      · next hv =>
        cases List.mem_singleton.1 h
        simp [evaluate_binary, hb, ha, hv, Except.bind]
  | ternary b c d =>
    rcases List.mem_cons.1 h with h | h
    · cases h
      simp [evaluate_ternary, ha, Except.bind]
    · obtain ⟨v, hb, h⟩ := mem_onValue.1 h
      split at h
      all_goals
        next hv =>
        cases List.mem_singleton.1 h
        simp [evaluate_ternary, hb, ha, hv, Except.bind]

/-- after an error in a part nothing is logged of the node -/
theorem closing_of_error (h : (i, a) ∈ e.entered) (ha : a.evaluate = .error err) : e.closing = [] := by
  cases e with
  | binary b f c =>
    rcases List.mem_cons.1 h with h | h
    · cases h
      simp [closing, ha, onValue]
    · obtain ⟨v, hb, h⟩ := mem_onValue.1 h
      split at h
      · cases h
      · cases List.mem_singleton.1 h
        simp [closing, hb, ha, onValue]
  | _ => rfl

/-- a part with an error is the last one that is evaluated, and the only one with an error -/
theorem entered_of_error (h : (i, a) ∈ e.entered) (ha : a.evaluate = .error err) :
    ∃ before, e.entered = before ++ [(i, a)] ∧ ∀ b ∈ before, ∃ v, b.2.evaluate = .ok v := by
  cases e with
  | literal c => cases h
  | grouping b | unary f b =>
    cases List.mem_singleton.1 h
    exact ⟨[], rfl, by simp⟩
  | binary b f c =>
    rcases List.mem_cons.1 h with h | h
    · cases h
      exact ⟨[], entered_binary_of_error _ _ ha, by simp⟩
    · obtain ⟨v, hb, h⟩ := mem_onValue.1 h
      split at h
      · cases h
      · next hv =>
        cases List.mem_singleton.1 h
        exact ⟨[(0, b)], by simp [entered_binary_of_ok _ _ hb, hv], by simp [hb]⟩
  | ternary b c d =>
    rcases List.mem_cons.1 h with h | h
    · cases h
      exact ⟨[], entered_ternary_of_error _ _ ha, by simp⟩
    · obtain ⟨v, hb, h⟩ := mem_onValue.1 h
      split at h
      all_goals
        next hv =>
        cases List.mem_singleton.1 h
        exact ⟨[(0, b)], by simp [entered_ternary_of_ok _ _ hb, hv], by simp [hb]⟩

end

/-! ## Operators and the values of their operands -/

/-- whether a node is an operator that takes the values of all its operands -/
def isStrict : Expr → Bool
  | .unary .. => true
  | .binary _ f _ => f.kind ≠ .or && f.kind ≠ .and
  | _ => false

/-- the operands of a node have values, all of them, and its operator takes them to `r` -/
inductive Applies : Expr → Result → Prop where
  | unary {f : Token} {a : Expr} {v : Value} {r : Result} (ha : a.evaluate = .ok v) (hr : v.applyUnary f = r) :
      Applies (.unary f a) r
  | binary {f : Token} {a b : Expr} {v w : Value} {r : Result} (hf : f.kind ≠ .or ∧ f.kind ≠ .and)
      (ha : a.evaluate = .ok v) (hb : b.evaluate = .ok w) (hr : v.applyBinary f w = r) : Applies (.binary a f b) r

theorem decides_of_strict {f : Token} (hf : f.kind ≠ .or ∧ f.kind ≠ .and) (v : Value) : v.decides f.kind = false := by
  unfold Value.decides
  split
  · next h => exact absurd h hf.1
  · next h => exact absurd h hf.2
  · rfl

section
variable {e n a : Expr} {i : Nat} {r : Result} {v : Value} {err : RuntimeError}

theorem Applies.evaluate_eq (h : n.Applies r) : n.evaluate = r := by
  cases h with
  | unary ha hr => simp [evaluate_unary, ha, hr, Except.bind]
  | binary hf ha hb hr => simp [evaluate_binary, ha, hb, hr, hf, decides_of_strict hf, Except.bind]

/-- such a node evaluates all its parts, in order, and each has a value -/
theorem Applies.entered_eq (h : n.Applies r) :
    n.entered = n.parts.mapIdx Prod.mk ∧ n.parts ≠ [] ∧ ∀ a ∈ n.parts, ∃ v, a.evaluate = .ok v := by
  cases h with
  | unary ha hr => exact ⟨rfl, by simp [parts], by simp [parts, ha]⟩
  | @binary f a b v w r hf ha hb hr =>
    refine ⟨?_, by simp [parts], by simp [parts, ha, hb]⟩
    rw [entered_binary_of_ok b f ha, decides_of_strict hf]
    rfl

/-- a strict operator is applied, unless one of the operands that are evaluated has an error -/
theorem applies_or_fails (hn : n.isStrict = true) :
    n.Applies n.evaluate ∨ ∃ i a err, (i, a) ∈ n.entered ∧ a.evaluate = .error err := by
  cases n with
  | literal c | grouping a | ternary a b c => cases hn
  | unary f a =>
    cases ha : a.evaluate with
    | error err => exact .inr ⟨0, a, err, List.mem_singleton_self _, ha⟩
    | ok v => exact .inl (.unary ha (by simp [evaluate_unary, ha, Except.bind]))
  | binary a f b =>
    have hf : f.kind ≠ .or ∧ f.kind ≠ .and := by simpa [isStrict] using hn
    cases ha : a.evaluate with
    | error err => exact .inr ⟨0, a, err, List.mem_cons_self, ha⟩
    | ok v =>
      have hentered := entered_binary_of_ok b f ha
      rw [decides_of_strict hf] at hentered
      cases hb : b.evaluate with
      | error err => exact .inr ⟨1, b, err, by simp [hentered], hb⟩
      | ok w =>
        exact .inl (.binary hf ha hb (by simp [evaluate_binary, ha, hb, hf, decides_of_strict hf, Except.bind]))

theorem applies_of_ok (hn : n.isStrict = true) (h : n.evaluate = .ok v) : n.Applies (.ok v) := by
  rcases applies_or_fails hn with happlies | ⟨i, a, err, hentered, ha⟩
  · rwa [h] at happlies
  · cases h.symm.trans (evaluate_of_error hentered ha)

/-- the error of a node is that of a part, or of its own operator -/
theorem applies_or_entered (h : e.evaluate = .error err) :
    e.Applies (.error err) ∨ ∃ i a, (i, a) ∈ e.entered ∧ a.evaluate = .error err := by
  have hpart : (∃ i a err', (i, a) ∈ e.entered ∧ a.evaluate = .error err') →
      ∃ i a, (i, a) ∈ e.entered ∧ a.evaluate = .error err := by
    rintro ⟨i, a, err', hentered, ha⟩
    cases h.symm.trans (evaluate_of_error hentered ha)
    exact ⟨i, a, hentered, ha⟩
  by_cases hstrict : e.isStrict = true
  · rcases applies_or_fails hstrict with happlies | hfails
    · rw [h] at happlies
      exact .inl happlies
    · exact .inr (hpart hfails)
  · right
    cases e with
    | literal c => cases h
    | unary f a => exact absurd rfl hstrict
    | grouping a => exact ⟨0, a, List.mem_singleton_self _, h⟩
    | binary a f b =>
      have hlogic : f.kind = .or ∨ f.kind = .and := by
        by_contra hf
        rw [not_or] at hf
        exact hstrict (by simpa [isStrict] using hf)
      cases ha : a.evaluate with
      | error err' => exact hpart ⟨0, a, err', List.mem_cons_self, ha⟩
      | ok v =>
        by_cases hv : v.decides f.kind = true
        · simp [evaluate_binary, ha, hv, Except.bind] at h
        · exact ⟨1, b, by simp [entered_binary_of_ok b f ha, hv],
            by simpa [evaluate_binary, ha, hv, hlogic, Except.bind] using h⟩
    | ternary a b c =>
      cases ha : a.evaluate with
      | error err' => exact hpart ⟨0, a, err', List.mem_cons_self, ha⟩
      | ok v =>
        by_cases hv : v.isTruthy = true
        · exact ⟨1, b, by simp [entered_ternary_of_ok b c ha, hv],
            by simpa [evaluate_ternary, ha, hv, Except.bind] using h⟩
        · exact ⟨2, c, by simp [entered_ternary_of_ok b c ha, hv],
            by simpa [evaluate_ternary, ha, hv, Except.bind] using h⟩

end

/-! ## The log with its places -/

/-- events, each with the place of the node that it is about -/
abbrev Log : Type := List (List Nat × Event)

/-- the log of what stands at a place, seen from the root -/
def under (p : List Nat) (log : Log) : Log :=
  log.map fun entry => (p ++ entry.1, entry.2)

/-- the log of an evaluation, with places: a visit of the root, what is logged of its parts, and what is logged of it at
last -/
def log (e : Expr) : Log :=
  ([], .visited e.nodeName) ::
    (e.entered.attach.flatMap (fun part => under [part.1.1] part.1.2.log) ++ e.closing.map ([], ·))
termination_by sizeOf e
decreasing_by exact sizeOf_lt_of_mem_parts (List.mem_of_getElem? (part_of_entered part.2))

theorem log_eq (e : Expr) : e.log = ([], .visited e.nodeName) ::
    (e.entered.flatMap (fun part => under [part.1] part.2.log) ++ e.closing.map ([], ·)) := by
  rw [log, List.flatMap_def, List.flatMap_def,
    List.attach_map_val (f := fun part : Nat × Expr => under [part.1] part.2.log)]

theorem run_events (e : Expr) :
    e.run.events = .visited e.nodeName :: (e.entered.flatMap (·.2.run.events) ++ e.closing) := by
  have hresult : ∀ a : Expr, a.run.result = a.evaluate := fun _ => rfl
  cases e with
  | literal c => rfl
  | grouping a => simp [run, Run.after, entered, closing]
  | unary f a =>
    cases ha : a.evaluate <;> simp [run, Run.after, Run.andThen, entered, closing, hresult, ha]
  | binary a f b =>
    cases ha : a.evaluate with
    | error err => simp [run, Run.after, Run.andThen, entered, closing, onValue, hresult, ha]
    | ok v =>
      rw [entered_binary_of_ok b f ha]
      by_cases hv : v.decides f.kind = true
      · have hlogic : f.kind = .or ∨ f.kind = .and := by
          by_contra hf
          rw [decides_of_strict (not_or.1 hf)] at hv
          cases hv
        simp [run, Run.after, Run.andThen, closing, hresult, ha, hv, hlogic]
      · by_cases hlogic : f.kind = .or ∨ f.kind = .and
        · simp [run, Run.after, Run.andThen, closing, hresult, ha, hv, hlogic]
        · cases hb : b.evaluate <;> simp [run, Run.after, Run.andThen, closing, onValue, hresult, ha, hb, hv, hlogic]
  | ternary a b c =>
    cases ha : a.evaluate with
    | error err => simp [run, Run.after, Run.andThen, entered, closing, onValue, hresult, ha]
    | ok v =>
      rw [entered_ternary_of_ok b c ha]
      by_cases hv : v.isTruthy = true <;> simp [run, Run.after, Run.andThen, closing, hresult, ha, hv]

/-- **Without the places it is the log** of the evaluation. -/
theorem map_log (e : Expr) : e.log.map Prod.snd = e.run.events := by
  induction e using parts_induction with
  | step e ih =>
    have hparts : ∀ part ∈ e.entered, (under [part.1] part.2.log).map Prod.snd = part.2.run.events := by
      intro part hpart
      rw [← ih part.2 (List.mem_of_getElem? (part_of_entered hpart))]
      simp [under]
    rw [log_eq, run_events]
    simp only [List.map_cons, List.map_append, List.map_flatMap, List.map_map]
    rw [List.flatMap_congr hparts]
    simp

/-! ## Visits -/

def Visits (e : Expr) (p : List Nat) : Prop :=
  ∃ name, (p, .visited name) ∈ e.log

section
variable {e n a : Expr} {i : Nat} {p q : List Nat} {r : Result} {v : Value} {err : RuntimeError} {name : String}

theorem mem_under {log : Log} {entry : List Nat × Event} :
    entry ∈ under p log ↔ ∃ q, (q, entry.2) ∈ log ∧ p ++ q = entry.1 := by
  obtain ⟨place, event⟩ := entry
  simp only [under, List.mem_map, Prod.mk.injEq, Prod.exists]
  constructor
  · rintro ⟨q, event', hmem, hplace, rfl⟩
    exact ⟨q, hmem, hplace⟩
  · rintro ⟨q, hmem, hplace⟩
    exact ⟨q, event, hmem, hplace, rfl⟩

/-- nothing is visited behind the parts -/
theorem visited_notMem_closing (e : Expr) (name : String) : .visited name ∉ e.closing := by
  intro h
  cases e with
  | binary a f b =>
    simp only [closing] at h
    split at h
    · cases h
    · obtain ⟨v, -, h⟩ := mem_onValue.1 h
      obtain ⟨w, -, h⟩ := mem_onValue.1 h
      cases List.mem_singleton.1 h
  | _ => cases h

theorem visited_root_iff : ([], .visited name) ∈ e.log ↔ name = e.nodeName := by
  rw [log_eq]
  simp [mem_under, visited_notMem_closing]

theorem visited_part_iff : (i :: p, .visited name) ∈ e.log ↔ ∃ a, (i, a) ∈ e.entered ∧ (p, .visited name) ∈ a.log := by
  rw [log_eq]
  simp [mem_under]

theorem visits_nil (e : Expr) : e.Visits [] :=
  ⟨e.nodeName, visited_root_iff.2 rfl⟩

theorem visits_cons_iff : e.Visits (i :: p) ↔ ∃ a, (i, a) ∈ e.entered ∧ a.Visits p := by
  constructor
  · rintro ⟨name, h⟩
    obtain ⟨a, ha, h⟩ := visited_part_iff.1 h
    exact ⟨a, ha, name, h⟩
  · rintro ⟨a, ha, name, h⟩
    exact ⟨name, visited_part_iff.2 ⟨a, ha, h⟩⟩

/-- each visit is of the node at its place -/
theorem exists_at_of_mem_log (h : (p, .visited name) ∈ e.log) : ∃ n, e.at? p = some n ∧ n.nodeName = name := by
  induction p generalizing e with
  | nil => exact ⟨e, rfl, (visited_root_iff.1 h).symm⟩
  | cons i p ih =>
    obtain ⟨a, ha, h⟩ := visited_part_iff.1 h
    obtain ⟨n, hn, hname⟩ := ih h
    exact ⟨n, by rw [at?, part_of_entered ha, Option.bind_some, hn], hname⟩

theorem entered_ordered (e : Expr) : e.entered.Pairwise (·.1 < ·.1) := by
  apply List.Pairwise.sublist e.entered_sublist
  refine List.pairwise_iff_getElem.2 fun i j hi hj hij => ?_
  rwa [List.getElem_mapIdx, List.getElem_mapIdx]

/-- the log goes on to places that come later in the tree: a node before its parts, and parts from left to right -/
theorem log_ordered (e : Expr) : e.log.Pairwise fun x y => (∃ name, y.2 = .visited name) → x.1 < y.1 := by
  induction e using parts_induction with
  | step e ih =>
    have hclosing : ∀ y ∈ e.closing.map (([] : List Nat), ·), ¬ ∃ name, y.2 = .visited name := by
      rintro y hy ⟨name, hname⟩
      obtain ⟨event, hevent, rfl⟩ := List.mem_map.1 hy
      exact visited_notMem_closing e name (hname ▸ hevent)
    rw [log_eq, List.pairwise_cons, List.pairwise_append, List.pairwise_flatMap]
    refine ⟨fun y hy hvisited => ?_, ⟨fun part hpart => ?_, ?_⟩, ?_, fun x _ y hy h => absurd h (hclosing y hy)⟩
    · rcases List.mem_append.1 hy with hy | hy
      · obtain ⟨part, -, hy⟩ := List.mem_flatMap.1 hy
        obtain ⟨q, -, hplace⟩ := mem_under.1 hy
        rw [← hplace]
        exact List.nil_lt_cons _ _
      · exact absurd hvisited (hclosing y hy)
    · have hlog := ih part.2 (List.mem_of_getElem? (part_of_entered hpart))
      exact List.pairwise_map.2 (hlog.imp fun h hvisited => List.cons_lt_cons_iff.2 (.inr ⟨rfl, h hvisited⟩))
    · refine e.entered_ordered.imp fun {part part'} hlt x hx y hy _ => ?_
      obtain ⟨q, -, hplace⟩ := mem_under.1 hx
      obtain ⟨q', -, hplace'⟩ := mem_under.1 hy
      rw [← hplace, ← hplace']
      exact List.cons_lt_cons_iff.2 (.inl hlt)
    · exact List.pairwise_of_forall_mem_list fun x _ y hy h => absurd h (hclosing y hy)

/-! ## What is not visited -/

/-- a part that is not evaluated may be anything, and one that is evaluated alike may take its place -/
theorem run_mapPart {g : Expr → Expr} (h : ∀ a, (i, a) ∈ e.entered → (g a).run = a.run) :
    (e.mapPart g i).run = e.run := by
  cases e with
  | literal c => rfl
  | grouping a =>
    rcases i with _ | i
    · simp only [mapPart, run, h a (List.mem_singleton_self _), nodeName]
    · rfl
  | unary f a =>
    rcases i with _ | i
    · simp only [mapPart, run, h a (List.mem_singleton_self _), nodeName]
    · rfl
  | binary a f b =>
    rcases i with _ | _ | i
    · simp only [mapPart, run, h a List.mem_cons_self, nodeName]
    · refine congrArg (Run.after _) (Run.andThen_congr fun v ha => ?_)
      split
      · rfl
      · next hv => rw [h b (by simp [entered_binary_of_ok b f ha, hv])]
    · rfl
  | ternary a b c =>
    rcases i with _ | _ | _ | i
    · simp only [mapPart, run, h a List.mem_cons_self, nodeName]
    · refine congrArg (Run.after _) (Run.andThen_congr fun v ha => ?_)
      split
      · next hv => exact h b (by simp [entered_ternary_of_ok b c ha, hv])
      · rfl
    · refine congrArg (Run.after _) (Run.andThen_congr fun v ha => ?_)
      split
      · rfl
      · next hv => exact h c (by simp [entered_ternary_of_ok b c ha, hv])
    · rfl

/-- **What is not visited does not matter.** -/
theorem run_replace (h : ¬ e.Visits p) (s : Expr) : (e.replace p s).run = e.run := by
  induction p generalizing e with
  | nil => exact absurd e.visits_nil h
  | cons i p ih =>
    apply run_mapPart
    intro a ha
    apply ih
    intro hvisits
    exact h (visits_cons_iff.2 ⟨a, ha, hvisits⟩)

/-! ## What is visited -/

/-- In the evaluation of `e`, the node `n` at a place is visited, and so are its operands. They have values, and the
operator of `n` takes them to `r`. -/
structure Applied (e : Expr) (p : List Nat) (n : Expr) (r : Result) : Prop where
  at_eq : e.at? p = some n
  visited : e.Visits p
  operands : ∀ i < n.parts.length, e.Visits (p ++ [i])
  applies : n.Applies r

/-- in the log of `e`, no node is visited after what is logged of the tree `a` at a place -/
def EndsWith (e : Expr) (p : List Nat) (a : Expr) : Prop :=
  ∃ before after, e.log = before ++ under p a.log ++ after ∧ ∀ entry ∈ after, ∀ name, entry.2 ≠ .visited name

theorem Applied.root (h : n.Applies r) : n.Applied [] n r := by
  refine ⟨rfl, n.visits_nil, fun i hi => ?_, h⟩
  refine visits_cons_iff.2 ⟨n.parts[i], ?_, visits_nil _⟩
  rw [h.entered_eq.1]
  exact List.mem_mapIdx.2 ⟨i, hi, rfl⟩

theorem Applied.of_part (ha : (i, a) ∈ e.entered) (h : a.Applied p n r) : e.Applied (i :: p) n r where
  at_eq := by rw [at?, part_of_entered ha, Option.bind_some, h.at_eq]
  visited := visits_cons_iff.2 ⟨a, ha, h.visited⟩
  operands j hj := visits_cons_iff.2 ⟨a, ha, h.operands j hj⟩
  applies := h.applies

theorem eq_of_entered {b : Expr} (ha : (i, a) ∈ e.entered) (hb : (i, b) ∈ e.entered) : a = b :=
  Option.some.inj ((part_of_entered ha).symm.trans (part_of_entered hb))

theorem at?_of_entered (ha : (i, a) ∈ e.entered) : e.at? (i :: p) = a.at? p := by
  rw [at?, part_of_entered ha, Option.bind_some]

theorem Applied.exists_part (h : e.Applied (i :: p) n r) : ∃ a, (i, a) ∈ e.entered ∧ a.Applied p n r := by
  obtain ⟨a, ha, hvisited⟩ := visits_cons_iff.1 h.visited
  refine ⟨a, ha, (at?_of_entered ha).symm.trans h.at_eq, hvisited, fun j hj => ?_, h.applies⟩
  obtain ⟨b, hb, hoperand⟩ := visits_cons_iff.1 (h.operands j hj)
  rwa [eq_of_entered ha hb]

/-- **Without an error, every operator that is visited has values and takes them.** -/
theorem applied_of_ok (h : e.evaluate = .ok v) (hp : e.Visits p) (hn : e.at? p = some n) (hstrict : n.isStrict = true) :
    ∃ w, e.Applied p n (.ok w) := by
  induction p generalizing e v with
  | nil =>
    cases hn
    exact ⟨v, .root (applies_of_ok hstrict h)⟩
  | cons i p ih =>
    obtain ⟨a, ha, hp⟩ := visits_cons_iff.1 hp
    rw [at?_of_entered ha] at hn
    cases hresult : a.evaluate with
    | error err => cases h.symm.trans (evaluate_of_error ha hresult)
    | ok v' =>
      obtain ⟨w, hw⟩ := ih hresult hp hn
      exact ⟨w, hw.of_part ha⟩

theorem Applied.evaluate_eq (h : e.Applied p n (.error err)) : e.evaluate = .error err := by
  induction p generalizing e with
  | nil =>
    cases h.at_eq
    exact h.applies.evaluate_eq
  | cons i p ih =>
    obtain ⟨a, ha, hpart⟩ := h.exists_part
    exact evaluate_of_error ha (ih hpart)

/-- below an operator that is applied no other rejects its operands -/
theorem Applies.not_error (h : e.Applies r) (ha : (i, a) ∈ e.entered) : a.evaluate ≠ .error err := by
  obtain ⟨v, hv⟩ := h.entered_eq.2.2 a (List.mem_of_getElem? (part_of_entered ha))
  rw [hv]
  exact fun herr => by cases herr

/-- **One operator rejects its operands at most.** -/
theorem Applied.unique {m : Expr} {err' : RuntimeError} (h : e.Applied p n (.error err))
    (h' : e.Applied q m (.error err')) : p = q := by
  induction p generalizing e q with
  | nil =>
    cases q with
    | nil => rfl
    | cons j q =>
      cases h.at_eq
      obtain ⟨b, hb, hpart'⟩ := h'.exists_part
      exact absurd hpart'.evaluate_eq (h.applies.not_error hb)
  | cons i p ih =>
    obtain ⟨a, ha, hpart⟩ := h.exists_part
    cases q with
    | nil =>
      cases h'.at_eq
      exact absurd hpart.evaluate_eq (h'.applies.not_error ha)
    | cons j q =>
      obtain ⟨b, hb, hpart'⟩ := h'.exists_part
      obtain ⟨before, hentered, hvalues⟩ := entered_of_error ha hpart.evaluate_eq
      rw [hentered] at hb
      rcases List.mem_append.1 hb with hb | hb
      · obtain ⟨v, hv⟩ := hvalues _ hb
        cases hv.symm.trans hpart'.evaluate_eq
      · cases List.mem_singleton.1 hb
        rw [ih hpart hpart']

theorem under_append (p : List Nat) (log log' : Log) : under p (log ++ log') = under p log ++ under p log' :=
  List.map_append

theorem under_under (p q : List Nat) (log : Log) : under p (under q log) = under (p ++ q) log := by
  simp [under]

/-- an operator that is applied visits nothing after its last operand -/
theorem Applies.endsWith (h : n.Applies r) :
    ∃ i a, n.parts[i]? = some a ∧ i + 1 = n.parts.length ∧ n.EndsWith [i] a := by
  obtain ⟨hentered, hne, -⟩ := h.entered_eq
  have hparts := List.dropLast_append_getLast hne
  generalize n.parts.dropLast = front, n.parts.getLast hne = a at hparts
  rw [← hparts, List.mapIdx_append] at hentered
  refine ⟨front.length, a, by simp [← hparts], by simp [← hparts],
    ([], .visited n.nodeName) :: (front.mapIdx Prod.mk).flatMap (fun part => under [part.1] part.2.log),
    n.closing.map ([], ·), ?_, fun entry hentry name hname => ?_⟩
  · rw [log_eq, hentered]
    simp
  · obtain ⟨event, hevent, rfl⟩ := List.mem_map.1 hentry
    exact visited_notMem_closing n name (hname ▸ hevent)

/-- an error in a part ends the evaluation of the node as well -/
theorem EndsWith.of_part {b : Expr} (ha : (i, a) ∈ e.entered) (herr : a.evaluate = .error err) (h : a.EndsWith p b) :
    e.EndsWith (i :: p) b := by
  obtain ⟨before, after, hlog, hafter⟩ := h
  obtain ⟨earlier, hentered, -⟩ := entered_of_error ha herr
  refine ⟨([], .visited e.nodeName) :: (earlier.flatMap (fun part => under [part.1] part.2.log) ++ under [i] before),
    under [i] after, ?_, fun entry hentry => ?_⟩
  · rw [log_eq, hentered, closing_of_error ha herr]
    simp [hlog, under_append, under_under]
  · obtain ⟨q, hmem, -⟩ := mem_under.1 hentry
    exact hafter (q, entry.2) hmem

/-- **An error is that of an operator that rejects its operands,** and nothing is visited after the last of them. -/
theorem exists_rejection (h : e.evaluate = .error err) : ∃ p n, e.Applied p n (.error err) ∧
    ∃ i a, n.parts[i]? = some a ∧ i + 1 = n.parts.length ∧ e.EndsWith (p ++ [i]) a := by
  induction e using parts_induction with
  | step e ih =>
    rcases applies_or_entered h with happlies | ⟨i, a, ha, herr⟩
    · exact ⟨[], e, .root happlies, happlies.endsWith⟩
    · obtain ⟨p, n, happlied, j, b, hb, hlast, hends⟩ := ih a (List.mem_of_getElem? (part_of_entered ha)) herr
      exact ⟨i :: p, n, happlied.of_part ha, j, b, hb, hlast, hends.of_part ha herr⟩

end

end Expr

/-- **Visits decide the result.** For every tree, the log has a place for each of its events, so that each visit is of a
node of that name, and places are visited in their order. Then
- any other tree in the place of one that is not visited leaves the result and the log as they are;
- if there is a value, every operator that is visited, except for `and` and `or`, has values for all its operands, which
  are visited too, and takes them to a value;
- if there is an error, just one operator that is visited has values for all its operands and rejects them. The error is
  its error, and no node is visited after what is logged of its last operand. -/
theorem visits_decide_result (e : Expr) :
    (e.log.map Prod.snd = e.run.events ∧
      (∀ p name, (p, .visited name) ∈ e.log → ∃ n, e.at? p = some n ∧ n.nodeName = name) ∧
      e.log.Pairwise fun x y => (∃ name, y.2 = .visited name) → x.1 < y.1) ∧
    (∀ p s, ¬ e.Visits p → (e.replace p s).run = e.run ∧ ∀ n, e.at? p = some n → (e.replace p s).at? p = some s) ∧
    (∀ v, e.evaluate = .ok v → ∀ p n, e.Visits p → e.at? p = some n → n.isStrict = true →
      ∃ w, e.Applied p n (.ok w)) ∧
    ∀ err, e.evaluate = .error err → ∃ p n, e.Applied p n (.error err) ∧
      (∀ q m err', e.Applied q m (.error err') → q = p) ∧
      ∃ i a, n.parts[i]? = some a ∧ i + 1 = n.parts.length ∧ e.EndsWith (p ++ [i]) a := by
  refine ⟨⟨e.map_log, fun p name => Expr.exists_at_of_mem_log, e.log_ordered⟩, ?_, ?_, ?_⟩
  · intro p s hvisits
    exact ⟨Expr.run_replace hvisits s, fun n hn => Expr.at?_replace hn s⟩
  · intro v h p n hvisited hn hstrict
    exact Expr.applied_of_ok h hvisited hn hstrict
  · intro err h
    obtain ⟨p, n, happlied, hlast⟩ := Expr.exists_rejection h
    exact ⟨p, n, happlied, fun q m err' h' => h'.unique happlied, hlast⟩

namespace Sample

/-- `- nil` -/
def rejection : Expr := .unary { kind := .minus, lexeme := "-" } (.literal .nil)

/-- `(true ? nil : - nil) + - nil`, without the parentheses -/
def guarded : Expr :=
  .binary (.ternary (.literal (.bool true)) (.literal .nil) rejection) { kind := .plus, lexeme := "+" } rejection

end Sample

/-- Of two signs that reject their operands, one stands in a branch that is not taken. Any tree may take its place; the
error is that of the other. -/
theorem guarded_rejection :
    (∀ s, (Sample.guarded.replace [0, 2] s).run = Sample.guarded.run) ∧
    Sample.guarded.evaluate = Sample.rejection.evaluate ∧
    ∃ p n, Sample.guarded.Applied p n Sample.rejection.evaluate := by
  have hvisits : ¬ Sample.guarded.Visits [0, 2] := by
    intro h
    obtain ⟨a, ha, h⟩ := Expr.visits_cons_iff.1 h
    obtain rfl := Expr.eq_of_entered ha List.mem_cons_self
    obtain ⟨b, hb, -⟩ := Expr.visits_cons_iff.1 h
    rw [Expr.entered_ternary_of_ok _ _ (Expr.evaluate_literal _)] at hb
    simp [Constant.value, Value.isTruthy] at hb
  obtain ⟨-, hreplace, -, hreject⟩ := visits_decide_result Sample.guarded
  obtain ⟨p, n, happlied, -⟩ := hreject _ rfl
  exact ⟨fun s => (hreplace _ s hvisits).1, rfl, p, n, happlied⟩

end Reckoner
