import TraceFront.Core.OfExpr

/-!
# Statement sequences by maximal runs

`Expr.coreBlock` takes the statements of a sequence from the last to the first and carries three
things along: the term from the next definition on, the expressions in front of it, and whether a
group of functions may still be joined.  Here the same term is described from the front.  A sequence
starts with

* a maximal run of expressions    they become the steps in front of what follows;
* a maximal run of functions      they become ONE group around what follows;
* any other definition            its bindings go around what follows.

`Expr.forward` is that description, and `coreBlock_eq_forward` says that the two agree.  The flag of
the scan is right because it can be read off the next statement (`joinable_following`): a group is
joined exactly when the next statement is itself the definition of a function, so never when the
group is the value of an expression.
-/

namespace TraceFront

namespace Expr

/-! ## kinds of statements -/

/-- the statement is a definition -/
def isDefinition : Expr String → Bool
  | define _ _ _ => true
  | _ => false

/-- name and value of a statement that defines a single name as a function -/
def asFunction? : Expr String → Option (String × Expr String)
  | define (.name n) v _ => if v.isProgram then some (n, v) else none
  | _ => none

/-- the statement defines a single name as a function -/
def isFunctionDefinition (e : Expr String) : Bool := e.asFunction?.isSome

/-- the functions that statements define, in order -/
def functionsOf (stmts : List (Expr String)) :
    List (String × Expr String) := stmts.filterMap asFunction?

/-- the statements start with the definition of a function -/
def startsWithFunction (stmts : List (Expr String)) : Bool := stmts.head?.any isFunctionDefinition

/-- the term of a run of expressions with nothing after it: one alone is not wrapped -/
def sequenceOf : List (Core String) → Core String
  | [c] => c
  | cs => .sequence cs

/-- the core term of a statement sequence, from its front -/
def forward : List (Expr String) → Core String
  | [] => .nil
  | define p v s :: rest =>
    match (define p v s).asFunction? with
    | some f =>
      let run := f :: functionsOf (rest.takeWhile isFunctionDefinition)
      let after := rest.dropWhile isFunctionDefinition
      .bindGroup (run.map fun f => (f.1, f.2.core))
        (if after.isEmpty then .var (run.getLast (by simp)).1 else forward after)
    | none =>
      Core.bindAll (p.bindings v.core) (if rest.isEmpty then .var p.wholeName else forward rest)
  | e :: rest =>
    let run := (e :: rest.takeWhile (!·.isDefinition)).map core
    let after := rest.dropWhile (!·.isDefinition)
    if after.isEmpty then sequenceOf run else .sequence (run ++ [forward after])
termination_by stmts => stmts.length
decreasing_by
  all_goals
    have h₁ := (List.dropWhile_sublist isFunctionDefinition (l := rest)).length_le
    have h₂ := (List.dropWhile_sublist (!·.isDefinition) (l := rest)).length_le
    simp only [List.length_cons]
    omega

theorem asFunction?_eq_some {e : Expr String} {f : String × Expr String}
    (h : e.asFunction? = some f) : ∃ s, e = define (.name f.1) f.2 s ∧ f.2.isProgram = true := by
  cases e with
  | define p v s =>
    cases p with
    | name n =>
      simp only [asFunction?] at h
      by_cases hv : v.isProgram = true
      · rw [if_pos hv] at h
        cases h
        exact ⟨s, rfl, hv⟩
      · rw [if_neg hv] at h
        cases h
    | wildcard => cases h
    | tuple ps => cases h
  | _ => cases h

theorem asFunction?_of_not_definition {e : Expr String} (h : e.isDefinition = false) :
    e.asFunction? = none := by
  cases e with
  | define p v s => cases h
  | _ => rfl

theorem asFunction?_define (p : Pattern String) (v : Expr String) (s : Span) :
    (define p v s).isFunctionDefinition = (p.isAtomic && v.isProgram) := by
  cases p with
  | name n =>
    cases hv : v.isProgram <;> simp [isFunctionDefinition, asFunction?, Pattern.isAtomic, hv]
  | wildcard => rfl
  | tuple ps => rfl

/-! ## the description from the front, case by case -/

theorem forward_function {e : Expr String} {f : String × Expr String} (h : e.asFunction? = some f)
    (rest : List (Expr String)) :
    forward (e :: rest) =
      .bindGroup ((f :: functionsOf (rest.takeWhile isFunctionDefinition)).map
          fun f => (f.1, f.2.core))
        (if (rest.dropWhile isFunctionDefinition).isEmpty
          then .var ((f :: functionsOf (rest.takeWhile isFunctionDefinition)).getLast (by simp)).1
          else forward (rest.dropWhile isFunctionDefinition)) := by
  obtain ⟨s, rfl, _⟩ := asFunction?_eq_some h
  rw [forward, h]

theorem forward_define {p : Pattern String} {v : Expr String} {s : Span}
    (h : (define p v s).asFunction? = none) (rest : List (Expr String)) :
    forward (define p v s :: rest) =
      Core.bindAll (p.bindings v.core)
        (if rest.isEmpty then .var p.wholeName else forward rest) := by
  rw [forward, h]

theorem forward_expression {e : Expr String} (h : e.isDefinition = false)
    (rest : List (Expr String)) :
    forward (e :: rest) =
      if (rest.dropWhile (!·.isDefinition)).isEmpty
        then sequenceOf ((e :: rest.takeWhile (!·.isDefinition)).map core)
        else .sequence ((e :: rest.takeWhile (!·.isDefinition)).map core
          ++ [forward (rest.dropWhile (!·.isDefinition))]) := by
  cases e with
  | define p v s => cases h
  | _ => rw [forward]; rintro _ _ _ ⟨⟩

/-! ## one statement of the scan -/

theorem following_expression {e : Expr String} (h : e.isDefinition = false)
    (stmts : List (Expr String)) : following (e :: stmts) = (following stmts).step e.core := by
  cases e with
  | define p v s => cases h
  | _ => rfl

/-- the flag of the scan can be read off the next statement -/
theorem joinable_following (stmts : List (Expr String)) :
    (following stmts).joinable = startsWithFunction stmts := by
  cases stmts with
  | nil => rfl
  | cons e stmts =>
    show _ = e.isFunctionDefinition
    cases h : e.isDefinition with
    | false =>
      rw [following_expression h, isFunctionDefinition, asFunction?_of_not_definition h]
      rfl
    | true =>
      cases e with
      | define p v s =>
        rw [asFunction?_define]
        rfl
      | _ => cases h

/-- the scan has a term in hand as soon as it has taken a statement -/
theorem exists_term?_following (e : Expr String) (stmts : List (Expr String)) :
    ∃ d, (following (e :: stmts)).term? = some d := by
  cases h : e.isDefinition with
  | false =>
    rw [following_expression h]
    simp only [Following.term?, Following.step]
    split
    · exact ⟨_, rfl⟩
    · exact ⟨_, rfl⟩
  | true =>
    cases e with
    | define p v s => exact ⟨_, rfl⟩
    | _ => cases h

theorem getD_term?_following (stmts : List (Expr String)) (c : Core String) :
    (following stmts).term?.getD c = if stmts.isEmpty then c else coreBlock stmts := by
  cases stmts with
  | nil => rfl
  | cons e stmts =>
    obtain ⟨d, hd⟩ := exists_term?_following e stmts
    show (following (e :: stmts)).term?.getD c = (following (e :: stmts)).term?.getD .nil
    rw [hd]
    rfl

theorem coreBlock_define (p : Pattern String) (v : Expr String) (s : Span)
    (rest : List (Expr String)) :
    coreBlock (define p v s :: rest) =
      definePattern p v.isProgram v.core
        (if rest.isEmpty then .var p.wholeName else coreBlock rest) (startsWithFunction rest) := by
  show definePattern p v.isProgram v.core ((following rest).term?.getD (.var p.wholeName))
    (following rest).joinable = _
  rw [getD_term?_following, joinable_following]

theorem definePattern_of_asFunction?_eq_none {p : Pattern String} {v : Expr String} {s : Span}
    (h : (define p v s).asFunction? = none) (rest : Core String) (join : Bool) :
    definePattern p v.isProgram v.core rest join = Core.bindAll (p.bindings v.core) rest := by
  cases p with
  | name n =>
    cases hv : v.isProgram with
    | true => simp [asFunction?, hv] at h
    | false => rfl
  | wildcard => rfl
  | tuple ps => rfl

/-! ## a run of functions is one group -/

theorem defineFunction_apart (n : String) (f rest : Core String) :
    defineFunction n f rest false = .bindGroup [(n, f)] rest := by
  unfold defineFunction
  split <;> rfl

theorem defineFunction_join (n : String) (f : Core String) (bs : List (String × Core String))
    (body : Core String) :
    defineFunction n f (.bindGroup bs body) true = .bindGroup ((n, f) :: bs) body := rfl

theorem coreBlock_function {e : Expr String} {f : String × Expr String} (h : e.asFunction? = some f)
    (rest : List (Expr String)) :
    coreBlock (e :: rest) =
      defineFunction f.1 f.2.core (if rest.isEmpty then .var f.1 else coreBlock rest)
        (startsWithFunction rest) := by
  obtain ⟨s, rfl, hv⟩ := asFunction?_eq_some h
  rw [coreBlock_define, hv]
  rfl

/-- a maximal run of functions, and what its group goes around -/
theorem coreBlock_run_of_functions (rest : List (Expr String)) :
    ∀ {e : Expr String} {f : String × Expr String}, e.asFunction? = some f →
      coreBlock (e :: rest) =
        .bindGroup ((f :: functionsOf (rest.takeWhile isFunctionDefinition)).map
            fun f => (f.1, f.2.core))
          (if (rest.dropWhile isFunctionDefinition).isEmpty
            then .var ((f :: functionsOf (rest.takeWhile isFunctionDefinition)).getLast (by simp)).1
            else coreBlock (rest.dropWhile isFunctionDefinition)) := by
  -- the run is the same one statement further on, and the group there is joined
  induction rest with
  | nil =>
    intro e f h
    rw [coreBlock_function h]
    exact defineFunction_apart ..
  | cons e' rest ih =>
    intro e f h
    rw [coreBlock_function h]
    cases h' : e'.asFunction? with
    | none =>
      have hf : isFunctionDefinition e' = false := by rw [isFunctionDefinition, h']; rfl
      have hs : startsWithFunction (e' :: rest) = false := hf
      rw [hs, defineFunction_apart, List.takeWhile_cons_of_neg (by simp [hf]),
        List.dropWhile_cons_of_neg (by simp [hf])]
      rfl
    | some f' =>
      have hf : isFunctionDefinition e' = true := by rw [isFunctionDefinition, h']; rfl
      have hs : startsWithFunction (e' :: rest) = true := hf
      have hfs : functionsOf (e' :: rest.takeWhile isFunctionDefinition)
          = f' :: functionsOf (rest.takeWhile isFunctionDefinition) :=
        List.filterMap_cons_some h'
      rw [hs, List.takeWhile_cons_of_pos hf, List.dropWhile_cons_of_pos hf]
      simp only [hfs]
      rw [List.getLast_cons (by simp)]
      show defineFunction f.1 f.2.core (coreBlock (e' :: rest)) true = _
      rw [ih h', defineFunction_join]
      rfl

/-! ## a run of expressions -/

/-- in front of a definition, or of nothing, the scan has no steps in hand -/
theorem steps_following {stmts : List (Expr String)}
    (h : ∀ e ∈ stmts.head?, e.isDefinition = true) : (following stmts).steps = [] ∧
      (following stmts).core.toList = if stmts.isEmpty then [] else [coreBlock stmts] := by
  cases stmts with
  | nil => exact ⟨rfl, rfl⟩
  | cons e stmts =>
    have he : e.isDefinition = true := h e rfl
    cases e with
    | define p v s => exact ⟨rfl, rfl⟩
    | _ => cases he

theorem following_run_of_expressions (run after : List (Expr String))
    (h : ∀ e ∈ run, e.isDefinition = false) :
    (following (run ++ after)).steps = run.map core ++ (following after).steps ∧
      (following (run ++ after)).core = (following after).core := by
  induction run with
  | nil => exact ⟨rfl, rfl⟩
  | cons e run ih =>
    obtain ⟨hs, hc⟩ := ih fun e' he' => h e' (List.mem_cons_of_mem _ he')
    rw [List.cons_append, following_expression (h e List.mem_cons_self)]
    show e.core :: (following (run ++ after)).steps = e.core :: (run.map core ++ _) ∧ _
    rw [hs]
    exact ⟨rfl, hc⟩

theorem getD_term?_of_steps {k : Following String} {c : Core String} {cs : List (Core String)}
    (h : k.steps = c :: cs) : k.term?.getD .nil = sequenceOf (c :: cs ++ k.core.toList) := by
  unfold Following.term?
  rw [h]
  simp only [List.cons_append]
  cases cs ++ k.core.toList with
  | nil => rfl
  | cons d ds => rfl

/-- a maximal run of expressions, and what they stand in front of -/
theorem coreBlock_run_of_expressions {e : Expr String} (h : e.isDefinition = false)
    (rest : List (Expr String)) :
    coreBlock (e :: rest) =
      if (rest.dropWhile (!·.isDefinition)).isEmpty
        then sequenceOf ((e :: rest.takeWhile (!·.isDefinition)).map core)
        else .sequence ((e :: rest.takeWhile (!·.isDefinition)).map core
          ++ [coreBlock (rest.dropWhile (!·.isDefinition))]) := by
  let run := e :: rest.takeWhile (!·.isDefinition)
  let after := rest.dropWhile (!·.isDefinition)
  have hsplit : e :: rest = run ++ after := by
    show e :: rest = e :: (rest.takeWhile (!·.isDefinition) ++ rest.dropWhile (!·.isDefinition))
    rw [List.takeWhile_append_dropWhile]
  have hrun : ∀ e' ∈ run, e'.isDefinition = false := by
    intro e' he'
    rcases List.mem_cons.mp he' with rfl | he'
    · exact h
    · simpa using List.all_eq_true.mp List.all_takeWhile e' he'
  have hafter : ∀ e' ∈ after.head?, e'.isDefinition = true := by
    intro e' he'
    have hn := List.head?_dropWhile_not (fun e : Expr String => !e.isDefinition) rest
    rw [show (rest.dropWhile fun e => !e.isDefinition).head? = some e' from he'] at hn
    simpa using hn
  obtain ⟨hsteps, hcore⟩ := following_run_of_expressions run after hrun
  obtain ⟨hnone, hlist⟩ := steps_following hafter
  rw [hnone, List.append_nil] at hsteps
  have hterm : coreBlock (e :: rest) =
      sequenceOf (run.map core ++ (following after).core.toList) := by
    show (following (e :: rest)).term?.getD .nil = _
    rw [hsplit, getD_term?_of_steps hsteps, hcore]
    rfl
  rw [hterm, hlist]
  by_cases ha : after.isEmpty = true
  · rw [if_pos ha, if_pos ha, List.append_nil]
  · rw [if_neg ha, if_neg ha]
    -- with what follows there are at least two terms, so that they are wrapped
    show sequenceOf
      (e.core :: ((rest.takeWhile (!·.isDefinition)).map core ++ [coreBlock after])) = _
    cases rest.takeWhile (!·.isDefinition) with
    | nil => rfl
    | cons e' run => rfl

/-! ## the scan and the description agree -/

theorem coreBlock_eq_forward (stmts : List (Expr String)) : coreBlock stmts = forward stmts := by
  induction hn : stmts.length using Nat.strongRecOn generalizing stmts with
  | ind n ih =>
    have shorter : ∀ {rest after : List (Expr String)} {e : Expr String}, stmts = e :: rest →
        after.Sublist rest → coreBlock after = forward after := by
      intro rest after e hs hsub
      refine ih after.length ?_ after rfl
      have hle := hsub.length_le
      rw [← hn, hs, List.length_cons]
      omega
    cases stmts with
    | nil => rw [forward]; rfl
    | cons e rest =>
      cases he : e.isDefinition with
      | false =>
        rw [coreBlock_run_of_expressions he, forward_expression he,
          shorter rfl (List.dropWhile_sublist _)]
      | true =>
        cases hf : e.asFunction? with
        | some f =>
          rw [coreBlock_run_of_functions rest hf, forward_function hf,
            shorter rfl (List.dropWhile_sublist _)]
        | none =>
          cases e with
          | define p v s =>
            have hd : definePattern p v.isProgram v.core
                (if rest.isEmpty then .var p.wholeName else coreBlock rest)
                (startsWithFunction rest)
                = Core.bindAll (p.bindings v.core)
                    (if rest.isEmpty then .var p.wholeName else coreBlock rest) :=
              definePattern_of_asFunction?_eq_none hf _ _
            rw [coreBlock_define, hd, forward_define hf, shorter rfl (List.Sublist.refl _)]
          | _ => cases he

/-- the statement that defines a name as a function -/
def functionStatement (f : String × Expr String × Span) :
    Expr String := define (.name f.1) f.2.1 f.2.2

theorem asFunction?_functionStatement {f : String × Expr String × Span}
    (h : f.2.1.isProgram = true) : (functionStatement f).asFunction? = some (f.1, f.2.1) := by
  simp only [functionStatement, asFunction?, h, if_true]

theorem functionsOf_map_functionStatement {fs : List (String × Expr String × Span)}
    (h : ∀ f ∈ fs, f.2.1.isProgram = true) :
    functionsOf (fs.map functionStatement) = fs.map fun f => (f.1, f.2.1) := by
  induction fs with
  | nil => rfl
  | cons f fs ih =>
    have hf := asFunction?_functionStatement (h f List.mem_cons_self)
    rw [List.map_cons, functionsOf, List.filterMap_cons_some hf, List.map_cons,
      ← ih fun g hg => h g (List.mem_cons_of_mem _ hg)]
    rfl

/-- functions up to a statement that is none become one group, whatever the statement is -/
theorem coreBlock_functions {fs : List (String × Expr String × Span)} (hne : fs ≠ [])
    (hfs : ∀ f ∈ fs, f.2.1.isProgram = true) {after : List (Expr String)}
    (ha : startsWithFunction after = false) :
    coreBlock (fs.map functionStatement ++ after) =
      .bindGroup (fs.map fun f => (f.1, f.2.1.core))
        (if after.isEmpty then .var (fs.getLast hne).1 else coreBlock after) := by
  cases fs with
  | nil => exact absurd rfl hne
  | cons f fs =>
    have hrun : ∀ e ∈ fs.map functionStatement, isFunctionDefinition e = true := by
      intro e he
      obtain ⟨g, hg, rfl⟩ := List.mem_map.mp he
      rw [isFunctionDefinition,
        asFunction?_functionStatement (hfs g (List.mem_cons_of_mem _ hg))]
      rfl
    have hstop : after.takeWhile isFunctionDefinition = [] ∧
        after.dropWhile isFunctionDefinition = after := by
      cases after with
      | nil => exact ⟨rfl, rfl⟩
      | cons e after =>
        have he : isFunctionDefinition e = false := ha
        exact ⟨List.takeWhile_cons_of_neg (by simp [he]), List.dropWhile_cons_of_neg (by simp [he])⟩
    have hf := asFunction?_functionStatement (hfs f List.mem_cons_self)
    have hfun := functionsOf_map_functionStatement fun g hg => hfs g (List.mem_cons_of_mem _ hg)
    have hlast : (((f.1, f.2.1) :: fs.map fun f => (f.1, f.2.1)).getLast (by simp)).1
        = ((f :: fs).getLast hne).1 :=
      congrArg Prod.fst (List.getLast_map (l := f :: fs)
        (f := fun f : String × Expr String × Span => (f.1, f.2.1)) (by simp))
    rw [List.map_cons, List.cons_append, coreBlock_run_of_functions _ hf]
    simp only [List.takeWhile_append_of_pos hrun, List.dropWhile_append_of_pos hrun, hstop.1,
      hstop.2, List.append_nil, hfun, hlast, List.map_cons, List.map_map]
    rfl

/-- **A statement sequence is taken by maximal runs.**  The scan from the back gives the term that
is described from the front, and functions up to a statement that is none are exactly one group: no
run is split, and a group that is the value of an expression is not joined. -/
theorem coreBlock_by_maximal_runs (stmts : List (Expr String)) :
    coreBlock stmts = forward stmts ∧
      ∀ (fs : List (String × Expr String × Span)) (hne : fs ≠ []) (after : List (Expr String)),
        stmts = fs.map functionStatement ++ after → (∀ f ∈ fs, f.2.1.isProgram = true) →
          startsWithFunction after = false →
            coreBlock stmts =
              .bindGroup (fs.map fun f => (f.1, f.2.1.core))
                (if after.isEmpty then .var (fs.getLast hne).1 else coreBlock after) := by
  refine ⟨coreBlock_eq_forward stmts, ?_⟩
  intro fs hne after hs hfs ha
  rw [hs]
  exact coreBlock_functions hne hfs ha

/-- two functions before a block that is itself a group: the groups stay apart -/
theorem coreBlock_functions_before_a_group :
    let s : Span := ⟨0, 0⟩
    let f := program (.name "x") [apply (var "g" s) [var "x" s] s] s
    let g := program (.name "y") [var "y" s] s
    coreBlock [define (.name "f") f s, define (.name "g") g s,
        block [define (.name "h") g s, var "h" s] s] =
      .bindGroup [("f", f.core), ("g", g.core)] (.bindGroup [("h", g.core)] (.var "h")) := by
  intro s f g
  exact (coreBlock_by_maximal_runs _).2 [("f", f, s), ("g", g, s)] (List.cons_ne_nil _ _)
    [block [define (.name "h") g s, var "h" s] s] rfl
    (List.forall_mem_cons.mpr ⟨rfl, List.forall_mem_singleton.mpr rfl⟩) rfl

end Expr

end TraceFront
