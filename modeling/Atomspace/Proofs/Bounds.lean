import Atomspace.Eval
import Atomspace.Proofs.Exact
import Atomspace.Proofs.Halting
/-!
# Bounds of evaluation

Every evaluation ends with at least one result, and with no more of them than its limit
(`bounded_eval`). This takes no assumption on the rules of the space or on native code: rules may call
each other in circles or let an atom grow.

One walk through a step shows all of it (`alike_step`). Each part answers within the limit, puts the path
back, and calls for what is inside on the path of the expressions around only. The last is said by two
computations side by side, whose inner calls need to agree on that path alone.
-/

namespace Atomspace

variable {ν : Type} [Scalar ν]

/-! ## Results -/

/-- No more atoms than a limit, and all of different keys. -/
structure Capped (limit : Nat) (l : List (Atom ν)) : Prop where
  length_le : l.length ≤ limit
  nodup : (l.map Atom.key).Nodup

/-- An answer within a limit, which is not empty. -/
structure Answer (limit : Nat) (l : List (Atom ν)) : Prop where
  ne_nil : l ≠ []
  capped : Capped limit l

/-- Any limit of at least one has room for a single atom. -/
theorem answer_singleton (n : Nat) (a : Atom ν) : Answer (max n 1) [a] :=
  ⟨List.cons_ne_nil a [], Nat.le_max_right n 1, List.nodup_singleton _⟩

namespace Results

/-- The results have the limit, and keep it. -/
structure Within (limit : Nat) (r : Results ν) : Prop where
  limit_eq : r.limit = limit
  capped : Capped limit r.atoms

theorem Within.push {limit : Nat} {r : Results ν} (h : r.Within limit) (a : Atom ν) :
    (r.push a).Within limit := by
  unfold Results.push
  split
  · exact h
  · rename_i hnew
    simp only [Bool.or_eq_true, not_or, isFull, decide_eq_true_eq, not_le, List.any_eq_true,
      beq_iff_eq, not_exists, not_and] at hnew
    obtain ⟨hroom, hkey⟩ := hnew
    refine ⟨h.limit_eq, ?_, ?_⟩
    · rw [List.length_append, ← h.limit_eq]
      exact hroom
    · rw [List.map_append, List.nodup_append]
      refine ⟨h.capped.nodup, List.nodup_singleton _, ?_⟩
      rintro _ hb _ ha rfl
      obtain ⟨b, hb, hbkey⟩ := List.mem_map.1 hb
      exact hkey b hb (hbkey.trans (List.mem_singleton.1 ha))

theorem Within.extend {limit : Nat} {r : Results ν} (h : r.Within limit) (l : List (Atom ν)) :
    (r.extend l).Within limit := by
  induction l generalizing r with
  | nil => exact h
  | cons a l ih => exact ih (h.push a)

end Results

namespace Evaluator

/-! ## Computations side by side -/

section
variable {α β : Type} {path path' path'' : List String}

/-- Begun on a path, the two computations do the same. They end on another path, with an answer that has
a property. -/
def Alike (path path' : List String) (m m' : Evaluating ν α) (Q : α → Prop) : Prop :=
  ∀ st, st.path = path → m st = m' st ∧ (m st).2.path = path' ∧ Q (m st).1

omit [Scalar ν] in
theorem Alike.pure {a : α} {Q : α → Prop} (ha : Q a) :
    Alike path path (pure a : Evaluating ν α) (pure a) Q :=
  fun _ hst => ⟨rfl, hst, ha⟩

omit [Scalar ν] in
theorem Alike.bind {m m' : Evaluating ν α} {f f' : α → Evaluating ν β} {P : α → Prop} {Q : β → Prop}
    (hm : Alike path path' m m' P) (hf : ∀ a, P a → Alike path' path'' (f a) (f' a) Q) :
    Alike path path'' (m >>= f) (m' >>= f') Q := by
  intro st hst
  obtain ⟨hsame, hpath, hanswer⟩ := hm st hst
  show f (m st).1 (m st).2 = f' (m' st).1 (m' st).2 ∧ _
  rw [← hsame]
  exact hf _ hanswer _ hpath

omit [Scalar ν] in
theorem Alike.mono {m m' : Evaluating ν α} {P Q : α → Prop} (hm : Alike path path' m m' P)
    (h : ∀ a, P a → Q a) : Alike path path' m m' Q := by
  intro st hst
  obtain ⟨hsame, hpath, hanswer⟩ := hm st hst
  exact ⟨hsame, hpath, h _ hanswer⟩

omit [Scalar ν] in
theorem alike_path (f : List String → List String) :
    Alike path (f path) (modify fun st : Evaluation ν => { st with path := f st.path })
      (modify fun st => { st with path := f st.path }) fun _ => True :=
  fun _ hst => ⟨rfl, congrArg f hst, trivial⟩

omit [Scalar ν] in
/-- What was put on the path last is taken off. -/
theorem alike_leave {key : String} {a : α} {Q : α → Prop} (ha : Q a) :
    Alike (key :: path) path
      (do modify fun st : Evaluation ν => { st with path := st.path.erase key }; return a)
      (do modify fun st => { st with path := st.path.erase key }; return a) Q := by
  intro st hst
  refine ⟨rfl, ?_, ha⟩
  show st.path.erase key = path
  rw [hst, List.erase_cons_head]

theorem alike_ask (pattern : Atom ν) :
    Alike path path (ask pattern) (ask pattern) fun _ => True :=
  fun _ hst => ⟨rfl, hst, trivial⟩

theorem alike_arityAgrees (head : Atom ν) (count : Nat) :
    Alike path path (arityAgrees head count) (arityAgrees head count) fun _ => True := by
  unfold arityAgrees
  split
  · exact .pure trivial
  · exact (alike_ask _).bind fun _ _ => .pure trivial

end

/-! ## One step -/

section
variable {path : List String} {recur recur' : Atom ν → Evaluating ν (List (Atom ν))}
  (hrec : ∀ b, Alike path path (recur b) (recur' b) fun _ => True)
include hrec

theorem alike_applyGround (l : List (Match ν)) {limit : Nat} {r : Results ν} (hr : r.Within limit) :
    Alike path path (applyGround recur l r) (applyGround recur' l r) fun x => x.2.Within limit := by
  induction l generalizing r with
  | nil => exact .pure hr
  | cons m l ih =>
    unfold applyGround
    split
    · exact .pure hr
    · split
      · exact ih hr
      · exact (hrec _).bind fun found _ => (ih (hr.extend found)).bind fun _ h => .pure h

theorem alike_applyGeneral (a : Atom ν) (applied : List String) (l : List (Match ν)) {limit : Nat}
    {r : Results ν} (hr : r.Within limit) :
    Alike path path (applyGeneral recur a applied l r) (applyGeneral recur' a applied l r)
      fun x => x.Within limit := by
  induction l generalizing r with
  | nil => exact .pure hr
  | cons m l ih =>
    unfold applyGeneral
    split
    · exact .pure hr
    · split
      · exact ih hr
      · split
        · exact ih hr
        · exact (hrec _).bind fun found _ => ih (hr.extend found)

omit [Scalar ν] in
theorem alike_argumentValues (l : List (Atom ν)) :
    Alike path path (argumentValues recur l) (argumentValues recur' l) fun _ => True := by
  induction l with
  | nil => exact .pure trivial
  | cons a l ih =>
    unfold argumentValues
    apply (hrec a).bind
    intro values _
    split
    · exact ih.bind fun _ _ => .pure trivial
    · exact .pure trivial

theorem alike_evalChildren (l : List (Atom ν)) :
    Alike path path (evalChildren recur l) (evalChildren recur' l) fun _ => True := by
  induction l with
  | nil => exact .pure trivial
  | cons a l ih =>
    unfold evalChildren
    exact (hrec a).bind fun _ _ => ih.bind fun _ _ => .pure trivial

theorem alike_applyNative (e : Evaluator ν) (head : Atom ν) (args : List (Atom ν)) {limit : Nat}
    {r : Results ν} (hr : r.Within limit) :
    Alike path path (applyNative recur e head args r) (applyNative recur' e head args r)
      fun x => x.Within limit := by
  unfold applyNative
  split
  · exact .pure hr
  · rename_i name f _
    apply (alike_argumentValues hrec args).bind
    intro values _
    split
    · exact .pure hr
    · rename_i values
      have hcall : Alike path path (call f values) (call f values) fun _ => True :=
        fun _ hst => ⟨rfl, hst, trivial⟩
      apply hcall.bind
      intro result _
      split
      · exact .pure hr
      · exact (hrec _).bind fun found _ => .pure (hr.extend found)

theorem alike_reduce (e : Evaluator ν) (head : Atom ν) (args : List (Atom ν)) :
    Alike path path (reduce recur e head args) (reduce recur' e head args)
      fun r => r.Within (max e.config.maxResults 1) := by
  have hnone : Results.Within (max e.config.maxResults 1)
      ({ limit := max e.config.maxResults 1 } : Results ν) :=
    ⟨rfl, Nat.zero_le _, List.nodup_nil⟩
  unfold reduce
  apply (alike_arityAgrees head _).bind
  intro agrees _
  split
  · refine (alike_ask _).bind fun _ _ => (alike_applyGround hrec _ hnone).bind fun _ hground => ?_
    refine (alike_ask _).bind fun _ _ => (alike_applyGeneral hrec _ _ _ hground).bind fun _ hgeneral => ?_
    exact alike_applyNative hrec e head args hgeneral
  · exact .pure hnone

end

/-- The inner calls of a step are made on its own path with the atom on top. -/
theorem alike_step {path : List String} {recur recur' : Atom ν → Evaluating ν (List (Atom ν))}
    {a : Atom ν} (hrec : ∀ b, Alike (a.key :: path) (a.key :: path) (recur b) (recur' b) fun _ => True)
    (e : Evaluator ν) :
    Alike path path (step recur e a) (step recur' e a) (Answer (max e.config.maxResults 1)) := by
  have hself (b : Atom ν) : Answer (max e.config.maxResults 1) [b] := answer_singleton _ b
  unfold step
  split
  · rename_i head args
    -- all ways out leave the path as it was: on a circle nothing is put on, else it is taken off again
    have hget : Alike path path (get : Evaluating ν _) get fun _ => True := fun _ hst => ⟨rfl, hst, trivial⟩
    apply hget.bind
    intro st _
    split
    · exact .pure (hself _)
    · refine (alike_path (_ :: ·)).bind fun _ _ => (alike_reduce hrec e head args).bind fun r hr => ?_
      dsimp only
      split
      · refine (alike_evalChildren hrec _).bind fun children _ => ?_
        exact (Alike.pure (hself (.expr children))).bind fun _ => alike_leave
      · rename_i hsome
        have hfound : Answer (max e.config.maxResults 1) r.atoms :=
          ⟨fun hnil => hsome (List.isEmpty_iff.2 hnil), hr.capped⟩
        exact (Alike.pure hfound).bind fun _ => alike_leave
  · exact .pure (hself a)

/-! ## Every depth -/

theorem alike_evalPath (e : Evaluator ν) (depth : Nat) (a : Atom ν) (path : List String) :
    Alike path path (e.evalPath depth a) (e.evalPath depth a) (Answer (max e.config.maxResults 1)) := by
  induction depth generalizing a path with
  | zero => exact .pure (answer_singleton _ a)
  | succ depth ih => exact alike_step (fun b => (ih b _).mono fun _ _ => trivial) e

theorem answer_eval (e : Evaluator ν) (a : Atom ν) (depth : Nat) (s : Space ν) :
    Answer (max e.config.maxResults 1) (e.eval a depth s).1 :=
  (alike_evalPath e depth a [] { space := s } rfl).2.2

/-- Every evaluation has a result. -/
theorem eval_ne_nil (e : Evaluator ν) (a : Atom ν) (depth : Nat) (s : Space ν) : (e.eval a depth s).1 ≠ [] :=
  (answer_eval e a depth s).ne_nil

/-- The bounds of an evaluation with a number of levels. -/
structure Bounded (e : Evaluator ν) (a : Atom ν) (depth : Nat) : Prop where
  /-- Unification, the one thing that might go on for ever, ends. -/
  halts : ∀ l r : Atom ν, (Unifier.start l r ∅).Halts
  ne_nil : ∀ s, (e.eval a depth s).1 ≠ []
  length_le : ∀ s, (e.eval a depth s).1.length ≤ max 1 e.config.maxResults
  nodup : ∀ s, ((e.eval a depth s).1.map Atom.key).Nodup
  /-- Without a level left, and if it is no expression with a head, an atom stands for itself. -/
  still : (depth = 0 ∨ ∀ head args, a ≠ .expr (head :: args)) → ∀ s, e.eval a depth s = ([a], s)
  /-- The path is left as it was found. -/
  path : ∀ st, (e.evalPath depth a st).2.path = st.path
  /-- On one level more, all that is evaluated inside the atom sees the path of the expressions around
  and nothing else, so any other evaluation that agrees on that path would serve as well. -/
  inner : ∀ recur st, (∀ b st', st'.path = a.key :: st.path → recur b st' = e.evalPath depth b st') →
    step recur e a st = e.evalPath (depth + 1) a st

/-- Every evaluation is bounded, in any space and with any native code. -/
theorem bounded_eval (e : Evaluator ν) (a : Atom ν) (depth : Nat) : Bounded e a depth := by
  have hanswer := answer_eval e a depth
  constructor
  case halts => exact Unifier.halts_of_unnested Bindings.acyclic_empty.unnested
  case ne_nil => exact eval_ne_nil e a depth
  case length_le => exact fun s => Nat.max_comm 1 _ ▸ (hanswer s).capped.length_le
  case nodup => exact fun s => (hanswer s).capped.nodup
  case path => exact fun st => (alike_evalPath e depth a st.path st rfl).2.1
  case still =>
    rintro hstill s
    cases depth with
    | zero => rfl
    | succ depth =>
      have hnone := hstill.resolve_left (Nat.succ_ne_zero depth)
      show ((step (e.evalPath depth) e a { space := s }).1, _) = _
      unfold step
      split
      · exact absurd rfl (hnone _ _)
      · rfl
  case inner =>
    intro recur st hrec
    refine (alike_step (fun b => ?_) e st rfl).1
    intro st' hst'
    have hsame := hrec b st' hst'
    exact ⟨hsame, hsame ▸ (alike_evalPath e depth b _ st' hst').2.1, trivial⟩

/-- A space in which `(f x)` has two results: it grows, and it is `x`. -/
def growing : Space (Exact fun _ => 1) :=
  let s := ((Space.empty default).add (.expr [.symbol "=", .expr [.symbol "f", .var "x"],
    .expr [.symbol "f", .expr [.symbol "g", .var "x"]]])).2
  (s.add (.expr [.symbol "=", .expr [.symbol "f", .var "x"], .var "x"])).2

/-- An evaluator that is allowed no results. -/
def stingy : Evaluator (Exact fun _ => 1) where
  config := { maxDepth := 32, maxResults := 0 }
  registry := .standard

/-- It gives exactly one all the same. -/
theorem bounded_eval_growing :
    ∃ b, (stingy.eval (.expr [.symbol "f", .symbol "a"]) 40 growing).1 = [b] := by
  have hbounded := bounded_eval stingy (.expr [.symbol "f", .symbol "a"]) 40
  exact List.length_eq_one_iff.1 (le_antisymm (hbounded.length_le growing)
    (List.length_pos_of_ne_nil (hbounded.ne_nil growing)))

end Evaluator

end Atomspace
