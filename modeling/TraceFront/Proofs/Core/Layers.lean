import Mathlib.Data.List.DropRight
import TraceFront.Proofs.Core.Free

/-!
# What statements put around what follows them

A sequence of statements becomes layers, one inside the other, around the term of what follows: the
terms of a run of expressions, the bindings of a pattern one by one, the group of a run of
functions.

* `Layer`, `enclose`        a layer, and layers around a term;
* `visible`                 what a name stands for inside layers;
* `Expr.layers`             the layers of statements;
* `Expr.BetweenRuns`        a sequence is cut in two without cutting a run in two;
* `layers_append`           the layers of a sequence are then those of its parts,
* `coreBlock_append`        and its term is the layers of the first part around that of the second;
* `visible_layers`          the last definition of a name decides what it stands for, unless it goes
                            on a run of functions that defines the name before.
-/

namespace TraceFront

/-! ## layers -/

/-- what stands around the last part of a term -/
inductive Layer where
  /-- terms in front of it -/
  | steps (terms : List (Core String))
  | binding (name : String) (value : Core String)
  /-- functions that see one another -/
  | group (bindings : List (String × Core String))

namespace Layer

/-- the term of a layer around `c` -/
def wrap : Layer → Core String → Core String
  | steps cs, c => .sequence (cs ++ [c])
  | binding n v, c => .bind n v c
  | group bs, c => .bindGroup bs c

/-- the values that a layer gives a name; a group can give it more than one -/
def valuesOf (x : String) : Layer → List (Core String)
  | steps _ => []
  | binding n v => if n = x then [v] else []
  | group bs => (bs.filter (·.1 = x)).map (·.2)

/-- a layer around others; steps join steps, and functions join functions -/
def push : Layer → List Layer → List Layer
  | steps cs, steps ds :: ls => steps (cs ++ ds) :: ls
  | group bs, group cs :: ls => group (bs ++ cs) :: ls
  | l, ls => l :: ls

/-- a layer that is put around others stands in front of them, or joins the first -/
theorem push_cases (l : Layer) (ls : List Layer) :
    l.push ls = l :: ls ∨
      ∃ m ms j, ls = m :: ms ∧ l.push ls = j :: ms ∧
        ∀ x, j.valuesOf x = l.valuesOf x ++ m.valuesOf x := by
  cases ls with
  | nil => cases l <;> exact .inl rfl
  | cons m ms =>
    cases l with
    | steps cs =>
      cases m with
      | steps ds => exact .inr ⟨_, ms, .steps (cs ++ ds), rfl, rfl, fun _ => rfl⟩
      | binding n v => exact .inl rfl
      | group bs => exact .inl rfl
    | binding n v => exact .inl rfl
    | group bs =>
      cases m with
      | steps ds => exact .inl rfl
      | binding n v => exact .inl rfl
      | group cs =>
        refine .inr ⟨_, ms, .group (bs ++ cs), rfl, rfl, fun x => ?_⟩
        rw [valuesOf, List.filter_append, List.map_append]
        rfl

theorem exists_push_steps (cs : List (Core String)) (ls : List Layer) :
    ∃ ds ms, (steps cs).push ls = steps ds :: ms := by
  cases ls with
  | nil => exact ⟨cs, [], rfl⟩
  | cons m ls =>
    cases m with
    | steps ds => exact ⟨cs ++ ds, ls, rfl⟩
    | binding n v => exact ⟨cs, _, rfl⟩
    | group bs => exact ⟨cs, _, rfl⟩

theorem exists_push_group (bs : List (String × Core String)) (ls : List Layer) :
    ∃ cs ms, (group bs).push ls = group cs :: ms := by
  cases ls with
  | nil => exact ⟨bs, [], rfl⟩
  | cons m ls =>
    cases m with
    | steps ds => exact ⟨bs, _, rfl⟩
    | binding n v => exact ⟨bs, _, rfl⟩
    | group cs => exact ⟨bs ++ cs, ls, rfl⟩

theorem push_append (l : Layer) {ls : List Layer} (h : ls ≠ []) (ms : List Layer) :
    l.push (ls ++ ms) = l.push ls ++ ms := by
  cases ls with
  | nil => exact absurd rfl h
  | cons m ls => cases l <;> cases m <;> rfl

theorem foldr_push_binding (bs : List (String × Core String)) (ls : List Layer) :
    (bs.map fun b => binding b.1 b.2).foldr push ls = bs.map (fun b => binding b.1 b.2) ++ ls := by
  induction bs with
  | nil => rfl
  | cons b bs ih =>
    rw [List.map_cons, List.foldr_cons, ih]
    rfl

end Layer

/-- layers around a term, the first one outermost -/
def enclose (ls : List Layer) (c : Core String) : Core String := ls.foldr Layer.wrap c

theorem enclose_append (ls ms : List Layer) (c : Core String) :
    enclose (ls ++ ms) c = enclose ls (enclose ms c) :=
  List.foldr_append

theorem enclose_map_binding (bs : List (String × Core String)) (c : Core String) :
    enclose (bs.map fun b => .binding b.1 b.2) c = Core.bindAll bs c :=
  List.foldr_map

/-! ## what a name stands for -/

/-- what a name stands for inside layers: the values that the innermost layer with one gives it -/
def visible (x : String) : List Layer → List (Core String)
  | [] => []
  | l :: ls => if (visible x ls).isEmpty then l.valuesOf x else visible x ls

theorem visible_append (x : String) (ls ms : List Layer) :
    visible x (ls ++ ms) = if (visible x ms).isEmpty then visible x ls else visible x ms := by
  induction ls with
  | nil =>
    show visible x ms = if (visible x ms).isEmpty then [] else visible x ms
    split
    · rename_i h
      exact List.isEmpty_iff.mp h
    · rfl
  | cons l ls ih =>
    rw [List.cons_append, visible, ih]
    by_cases h : (visible x ms).isEmpty = true
    · rw [if_pos h, if_pos h, visible]
    · rw [if_neg h, if_neg h, if_neg h]

theorem visible_cons_eq_nil {x : String} {l : Layer} {ls : List Layer} :
    visible x (l :: ls) = [] ↔ l.valuesOf x = [] ∧ visible x ls = [] := by
  rw [visible]
  by_cases h : (visible x ls).isEmpty = true
  · rw [if_pos h, List.isEmpty_iff.mp h]
    exact (and_iff_left rfl).symm
  · rw [if_neg h]
    have hne : visible x ls ≠ [] := fun heq => h (List.isEmpty_iff.mpr heq)
    exact iff_of_false hne fun hand => hne hand.2

/-- a layer without the name changes nothing -/
theorem visible_push_of_unbound {x : String} {l : Layer} (h : l.valuesOf x = []) (ls : List Layer) :
    visible x (l.push ls) = visible x ls := by
  rcases l.push_cases ls with hpush | ⟨m, ms, j, rfl, hpush, hvalues⟩
  · rw [hpush, visible, h]
    split
    · rename_i hempty
      exact (List.isEmpty_iff.mp hempty).symm
    · rfl
  · rw [hpush, visible, visible, hvalues, h, List.nil_append]

/-- where the name stands for nothing, the layer in front decides -/
theorem visible_push_of_hidden {x : String} {ls : List Layer} (h : visible x ls = []) (l : Layer) :
    visible x (l.push ls) = l.valuesOf x := by
  rcases l.push_cases ls with hpush | ⟨m, ms, j, rfl, hpush, hvalues⟩
  · rw [hpush, visible, h]
    rfl
  · obtain ⟨hm, hms⟩ := visible_cons_eq_nil.mp h
    rw [hpush, visible, hms, hvalues, hm, List.append_nil]
    rfl

/-- the last of several bindings decides -/
theorem visible_map_binding (x : String) (bs : List (String × Core String)) :
    visible x (bs.map fun b => .binding b.1 b.2) = (bs.reverse.lookup x).toList := by
  induction bs with
  | nil => rfl
  | cons b bs ih =>
    obtain ⟨n, v⟩ := b
    rw [List.map_cons, visible, ih, List.reverse_cons, List.lookup_append]
    cases bs.reverse.lookup x with
    | some c => rfl
    | none =>
      show (if n = x then [v] else []) = (List.lookup x [(n, v)]).toList
      by_cases hn : n = x
      · rw [if_pos hn, hn, List.lookup_cons_self]
        rfl
      · have hne : (x == n) = false := beq_eq_false_iff_ne.mpr (Ne.symm hn)
        rw [if_neg hn, List.lookup_cons, hne]
        rfl

namespace Expr

/-! ## the layers of statements -/

/-- the layers of a statement by itself -/
def ownLayers : Expr String → List Layer
  | define p v s =>
    if (define p v s).isFunctionDefinition then [.group [(p.wholeName, v.core)]]
    else (p.bindings v.core).map fun b => .binding b.1 b.2
  | e => [.steps [e.core]]

/-- the layers that statements put around what follows them -/
def layers : List (Expr String) → List Layer
  | [] => []
  | e :: stmts => e.ownLayers.foldr Layer.push (layers stmts)

/-- a statement is an expression, the definition of a function, or another definition -/
theorem statement_cases (e : Expr String) :
    e.isDefinition = false ∨ (∃ f, e.asFunction? = some f) ∨
      ∃ p v s, e = define p v s ∧ (define p v s).asFunction? = none := by
  cases hf : e.asFunction? with
  | some f => exact .inr (.inl ⟨f, rfl⟩)
  | none =>
    cases e with
    | define p v s => exact .inr (.inr ⟨p, v, s, rfl, hf⟩)
    | _ => exact .inl rfl

theorem isFunctionDefinition_of_some {e : Expr String} {f : String × Expr String}
    (h : e.asFunction? = some f) : e.isFunctionDefinition = true := by
  rw [isFunctionDefinition, h]
  rfl

theorem isFunctionDefinition_of_none {e : Expr String} (h : e.asFunction? = none) :
    e.isFunctionDefinition = false := by
  rw [isFunctionDefinition, h]
  rfl

theorem layers_expression {e : Expr String} (h : e.isDefinition = false)
    (stmts : List (Expr String)) :
    layers (e :: stmts) = (Layer.steps [e.core]).push (layers stmts) := by
  cases e with
  | define p v s => cases h
  | _ => rfl

theorem layers_function {e : Expr String} {f : String × Expr String} (h : e.asFunction? = some f)
    (stmts : List (Expr String)) :
    layers (e :: stmts) = (Layer.group [(f.1, f.2.core)]).push (layers stmts) := by
  have hkind := isFunctionDefinition_of_some h
  obtain ⟨s, rfl, _⟩ := asFunction?_eq_some h
  rw [layers, ownLayers, if_pos hkind]
  rfl

theorem layers_define {p : Pattern String} {v : Expr String} {s : Span}
    (h : (define p v s).asFunction? = none) (stmts : List (Expr String)) :
    layers (define p v s :: stmts) =
      (p.bindings v.core).map (fun b => .binding b.1 b.2) ++ layers stmts := by
  have hkind := Bool.eq_false_iff.mp (isFunctionDefinition_of_none h)
  rw [layers, ownLayers, if_neg hkind, Layer.foldr_push_binding]

/-! ## between two runs -/

/-- the two statements belong to one run if they follow each other -/
def joins (a b : Expr String) : Bool :=
  a.isFunctionDefinition && b.isFunctionDefinition || !a.isDefinition && !b.isDefinition

/-- no run of functions and no run of expressions goes on from `us` to `vs`, and expressions have
something behind them -/
def BetweenRuns (us vs : List (Expr String)) : Prop :=
  ∀ a ∈ us.getLast?, match vs with
    | [] => a.isDefinition = true
    | b :: _ => joins a b = false

theorem BetweenRuns.tail {a : Expr String} {us vs : List (Expr String)}
    (h : BetweenRuns (a :: us) vs) : BetweenRuns us vs := by
  cases us with
  | nil => rintro b ⟨⟩
  | cons b us =>
    rw [BetweenRuns, List.getLast?_cons_cons] at h
    exact h

theorem BetweenRuns.joins_eq {a b : Expr String} {vs : List (Expr String)}
    (h : BetweenRuns [a] (b :: vs)) : joins a b = false :=
  h a rfl

theorem isDefinition_of_isFunctionDefinition {e : Expr String} (h : e.isFunctionDefinition = true) :
    e.isDefinition = true := by
  cases e with
  | define p v s => rfl
  | _ => cases h

theorem push_steps_of_definition {b : Expr String} (hb : b.isDefinition = true)
    (cs : List (Core String)) (vs : List (Expr String)) :
    (Layer.steps cs).push (layers (b :: vs)) = .steps cs :: layers (b :: vs) := by
  rcases b.statement_cases with h | ⟨f, hf⟩ | ⟨p, v, s, rfl, hf⟩
  · rw [h] at hb
    cases hb
  · obtain ⟨bs, ls, hls⟩ := Layer.exists_push_group [(f.1, f.2.core)] (layers vs)
    rw [layers_function hf, hls]
    rfl
  · rw [layers_define hf, Pattern.bindings_eq_cons]
    rfl

theorem push_group_of_not_function {b : Expr String} (hb : b.isFunctionDefinition = false)
    (bs : List (String × Core String)) (vs : List (Expr String)) :
    (Layer.group bs).push (layers (b :: vs)) = .group bs :: layers (b :: vs) := by
  rcases b.statement_cases with h | ⟨f, hf⟩ | ⟨p, v, s, rfl, hf⟩
  · obtain ⟨ds, ls, hls⟩ := Layer.exists_push_steps [b.core] (layers vs)
    rw [layers_expression h, hls]
    rfl
  · rw [isFunctionDefinition_of_some hf] at hb
    cases hb
  · rw [layers_define hf, Pattern.bindings_eq_cons]
    rfl

theorem layers_ne_nil (e : Expr String) (stmts : List (Expr String)) :
    layers (e :: stmts) ≠ [] := by
  rcases e.statement_cases with h | ⟨f, hf⟩ | ⟨p, v, s, rfl, hf⟩
  · obtain ⟨ds, ls, hls⟩ := Layer.exists_push_steps [e.core] (layers stmts)
    rw [layers_expression h, hls]
    exact List.cons_ne_nil _ _
  · obtain ⟨bs, ls, hls⟩ := Layer.exists_push_group [(f.1, f.2.core)] (layers stmts)
    rw [layers_function hf, hls]
    exact List.cons_ne_nil _ _
  · rw [layers_define hf, Pattern.bindings_eq_cons]
    exact List.cons_ne_nil _ _

/-- behind an expression, two runs are cut apart only at a definition -/
theorem isDefinition_of_joins {a b : Expr String} (ha : a.isDefinition = false)
    (h : joins a b = false) : b.isDefinition = true := by
  rw [joins, ha, isFunctionDefinition, asFunction?_of_not_definition ha] at h
  simpa using h

theorem not_function_of_joins {a b : Expr String} {f : String × Expr String}
    (ha : a.asFunction? = some f) (h : joins a b = false) : b.isFunctionDefinition = false := by
  have hkind := isFunctionDefinition_of_some ha
  rw [joins, hkind, isDefinition_of_isFunctionDefinition hkind] at h
  simpa using h

/-- a sequence that is cut between two runs has the layers of its parts -/
theorem layers_append {us vs : List (Expr String)} (h : BetweenRuns us vs) :
    layers (us ++ vs) = layers us ++ layers vs := by
  induction us with
  | nil => rfl
  | cons a us ih =>
    have ih := ih h.tail
    rcases a.statement_cases with ha | ⟨f, hf⟩ | ⟨p, v, s, rfl, hf⟩
    · rw [List.cons_append, layers_expression ha, layers_expression ha, ih]
      cases us with
      | cons b us => exact Layer.push_append _ (layers_ne_nil b us) _
      | nil =>
        cases vs with
        | nil => rfl
        | cons b vs => exact push_steps_of_definition (isDefinition_of_joins ha h.joins_eq) _ vs
    · rw [List.cons_append, layers_function hf, layers_function hf, ih]
      cases us with
      | cons b us => exact Layer.push_append _ (layers_ne_nil b us) _
      | nil =>
        cases vs with
        | nil => rfl
        | cons b vs => exact push_group_of_not_function (not_function_of_joins hf h.joins_eq) _ vs
    · rw [List.cons_append, layers_define hf, layers_define hf, ih, List.append_assoc]

/-! ## the term of a sequence -/

/-- an expression in front of a definition -/
theorem coreBlock_expression_definition {e d : Expr String} (he : e.isDefinition = false)
    (hd : d.isDefinition = true) (rest : List (Expr String)) :
    coreBlock (e :: d :: rest) = .sequence [e.core, coreBlock (d :: rest)] := by
  have hstop : ¬(!d.isDefinition) = true := by simp [hd]
  have htake : (d :: rest).takeWhile (!·.isDefinition) = [] := List.takeWhile_cons_of_neg hstop
  have hdrop : (d :: rest).dropWhile (!·.isDefinition) = d :: rest :=
    List.dropWhile_cons_of_neg hstop
  rw [coreBlock_run_of_expressions he, htake, hdrop]
  rfl

/-- an expression in front of another, with a definition somewhere behind them -/
theorem coreBlock_expression_expression {e e' : Expr String} (he : e.isDefinition = false)
    (he' : e'.isDefinition = false) {rest : List (Expr String)} (hd : ∃ d ∈ rest, d.isDefinition = true)
    {cs : List (Core String)} (h : coreBlock (e' :: rest) = .sequence cs) :
    coreBlock (e :: e' :: rest) = .sequence (e.core :: cs) := by
  have hgo : (!e'.isDefinition) = true := by simp [he']
  have hne : ¬(rest.dropWhile (!·.isDefinition)).isEmpty = true := by
    intro hempty
    obtain ⟨d, hmem, hdef⟩ := hd
    have hnone := List.dropWhile_eq_nil_iff.mp (List.isEmpty_iff.mp hempty) d hmem
    rw [hdef] at hnone
    cases hnone
  rw [coreBlock_run_of_expressions he', if_neg hne] at h
  have htake : (e' :: rest).takeWhile (!·.isDefinition) =
      e' :: rest.takeWhile (!·.isDefinition) := List.takeWhile_cons_of_pos hgo
  have hdrop : (e' :: rest).dropWhile (!·.isDefinition) = rest.dropWhile (!·.isDefinition) :=
    List.dropWhile_cons_of_pos hgo
  rw [coreBlock_run_of_expressions he, htake, hdrop, if_neg hne]
  cases h
  rfl

/-- behind an expression there is a definition before the sequence is cut, or right at the cut -/
theorem BetweenRuns.exists_definition {a : Expr String} {us vs : List (Expr String)}
    (h : BetweenRuns (a :: us) vs) (ha : a.isDefinition = false) :
    ∃ d ∈ us ++ vs, d.isDefinition = true := by
  induction us generalizing a with
  | nil =>
    cases vs with
    | nil =>
      have hdef : a.isDefinition = true := h a rfl
      rw [ha] at hdef
      cases hdef
    | cons b vs => exact ⟨b, List.mem_cons_self, isDefinition_of_joins ha h.joins_eq⟩
  | cons c us ih =>
    by_cases hc : c.isDefinition = true
    · exact ⟨c, List.mem_cons_self, hc⟩
    · obtain ⟨d, hd, hdef⟩ := ih h.tail (Bool.eq_false_iff.mpr hc)
      exact ⟨d, List.mem_cons_of_mem _ hd, hdef⟩

/-- the term behind the statements `us`: that of the statements that follow, or the name of the last
definition -/
def termAfter (us rest : List (Expr String)) : Core String :=
  match rest, us.getLast? with
  | [], some (define p _ _) => .var p.wholeName
  | rest, _ => coreBlock rest

theorem termAfter_cons_cons (a b : Expr String) (us rest : List (Expr String)) :
    termAfter (a :: b :: us) rest = termAfter (b :: us) rest := by
  unfold termAfter
  rw [List.getLast?_cons_cons]

/-- an expression in front of statements that become layers -/
theorem coreBlock_append_expression {a : Expr String} (ha : a.isDefinition = false)
    {us rest : List (Expr String)} (h : BetweenRuns (a :: us) rest)
    (ih : coreBlock (us ++ rest) = enclose (layers us) (termAfter us rest)) :
    coreBlock (a :: (us ++ rest)) = enclose (layers (a :: us)) (termAfter (a :: us) rest) := by
  rw [layers_expression ha]
  cases us with
  | nil =>
    obtain ⟨d, hd, _⟩ := h.exists_definition ha
    obtain ⟨b, rest, rfl⟩ := List.exists_cons_of_ne_nil (List.ne_nil_of_mem hd)
    exact coreBlock_expression_definition ha (isDefinition_of_joins ha h.joins_eq) rest
  | cons b us =>
    rw [termAfter_cons_cons]
    by_cases hb : b.isDefinition = true
    · rw [push_steps_of_definition hb, List.cons_append, coreBlock_expression_definition ha hb,
        ← List.cons_append, ih]
      rfl
    · have hb : b.isDefinition = false := Bool.eq_false_iff.mpr hb
      obtain ⟨ds, ls, hls⟩ := Layer.exists_push_steps [b.core] (layers us)
      have hdef : ∃ d ∈ us ++ rest, d.isDefinition = true := h.tail.exists_definition hb
      rw [layers_expression hb, hls] at ih ⊢
      exact coreBlock_expression_expression ha hb hdef ih

/-- a function in front of statements that become layers -/
theorem coreBlock_append_function {a : Expr String} {f : String × Expr String}
    (hf : a.asFunction? = some f) {us rest : List (Expr String)} (h : BetweenRuns (a :: us) rest)
    (ih : coreBlock (us ++ rest) = enclose (layers us) (termAfter us rest)) :
    coreBlock (a :: (us ++ rest)) = enclose (layers (a :: us)) (termAfter (a :: us) rest) := by
  rw [layers_function hf, coreBlock_function hf]
  cases us with
  | nil =>
    cases rest with
    | nil =>
      obtain ⟨s, rfl, _⟩ := asFunction?_eq_some hf
      exact defineFunction_apart ..
    | cons b rest =>
      have hb : startsWithFunction (b :: rest) = false := not_function_of_joins hf h.joins_eq
      rw [List.nil_append, hb, defineFunction_apart]
      rfl
  | cons b us =>
    have hne : ¬(b :: us ++ rest).isEmpty = true := Bool.false_ne_true
    rw [termAfter_cons_cons, if_neg hne]
    cases hb : b.asFunction? with
    | none =>
      have hb := isFunctionDefinition_of_none hb
      have hstart : startsWithFunction (b :: us ++ rest) = false := hb
      rw [push_group_of_not_function hb, ih, hstart, defineFunction_apart]
      rfl
    | some g =>
      have hstart : startsWithFunction (b :: us ++ rest) = true := isFunctionDefinition_of_some hb
      obtain ⟨bs, ls, hls⟩ := Layer.exists_push_group [(g.1, g.2.core)] (layers us)
      rw [layers_function hb, hls] at ih ⊢
      rw [ih, hstart]
      rfl

/-- the statements before a cut between two runs become layers around the term of those behind it -/
theorem coreBlock_append {us rest : List (Expr String)} (h : BetweenRuns us rest) :
    coreBlock (us ++ rest) = enclose (layers us) (termAfter us rest) := by
  induction us with
  | nil => cases rest <;> rfl
  | cons a us ih =>
    have ih := ih h.tail
    rw [List.cons_append]
    rcases a.statement_cases with ha | ⟨f, hf⟩ | ⟨p, v, s, rfl, hf⟩
    · exact coreBlock_append_expression ha h ih
    · exact coreBlock_append_function hf h ih
    · rw [coreBlock_define, definePattern_of_asFunction?_eq_none hf, layers_define hf,
        enclose_append, enclose_map_binding]
      cases us with
      | nil =>
        cases rest with
        | nil => rfl
        | cons b rest => rfl
      | cons b us =>
        rw [termAfter_cons_cons, ← ih]
        rfl

/-! ## the last definition of a name -/

/-- the names that a statement defines, those of its pattern's tuples among them -/
def defines : Expr String → List String
  | define p _ _ => p.boundNames
  | _ => []

theorem map_fst_bindings (p : Pattern String) (c : Core String) :
    (p.bindings c).map (·.1) = p.boundNames := by
  rw [Pattern.bindings_eq_cons]
  rfl

theorem lookup_bindings_eq_none_iff {x : String} {p : Pattern String} {c : Core String} :
    (p.bindings c).reverse.lookup x = none ↔ x ∉ p.boundNames := by
  rw [List.lookup_eq_none_iff, ← map_fst_bindings p c, List.mem_map]
  simp only [List.mem_reverse, bne_iff_ne]
  constructor
  · rintro h ⟨b, hb, heq⟩
    exact h b hb heq.symm
  · intro h b hb heq
    exact h ⟨b, hb, heq.symm⟩

theorem defines_function {e : Expr String} {f : String × Expr String} (h : e.asFunction? = some f) :
    e.defines = [f.1] := by
  obtain ⟨s, rfl, _⟩ := asFunction?_eq_some h
  rfl

/-- a statement that does not define the name changes nothing in front of others -/
theorem visible_layers_cons_of_not_mem {x : String} {e : Expr String} (h : x ∉ e.defines)
    (us : List (Expr String)) : visible x (layers (e :: us)) = visible x (layers us) := by
  rcases e.statement_cases with he | ⟨f, hf⟩ | ⟨p, v, s, rfl, hf⟩
  · rw [layers_expression he]
    exact visible_push_of_unbound rfl _
  · rw [defines_function hf] at h
    have hne : f.1 ≠ x := fun heq => h (List.mem_singleton.mpr heq.symm)
    have hvalues : (Layer.group [(f.1, f.2.core)]).valuesOf x = [] := by
      simp [Layer.valuesOf, hne]
    rw [layers_function hf]
    exact visible_push_of_unbound hvalues _
  · have hnone := lookup_bindings_eq_none_iff (c := v.core).mpr h
    rw [layers_define hf, visible_append, visible_map_binding, hnone]
    split
    · rename_i hempty
      exact (List.isEmpty_iff.mp hempty).symm
    · rfl

theorem visible_layers_append_of_not_mem {x : String} {us : List (Expr String)}
    (h : ∀ e ∈ us, x ∉ e.defines) (vs : List (Expr String)) :
    visible x (layers (us ++ vs)) = visible x (layers vs) := by
  induction us with
  | nil => rfl
  | cons e us ih =>
    obtain ⟨he, hus⟩ := List.forall_mem_cons.mp h
    rw [List.cons_append, visible_layers_cons_of_not_mem he, ih hus]

/-- a definition of the name with none behind it decides what the name stands for -/
theorem visible_layers_define {x : String} {p : Pattern String} (hx : x ∈ p.boundNames)
    (v : Expr String) (s : Span) {us : List (Expr String)} (h : ∀ e ∈ us, x ∉ e.defines) :
    ∃ c, (p.bindings v.core).reverse.lookup x = some c ∧
      visible x (layers (define p v s :: us)) = [c] := by
  have hhidden : visible x (layers us) = [] := by
    have happend := visible_layers_append_of_not_mem h []
    rw [List.append_nil] at happend
    exact happend
  cases hf : (define p v s).asFunction? with
  | some f =>
    obtain ⟨s', heq, _⟩ := asFunction?_eq_some hf
    cases heq
    obtain rfl := List.mem_singleton.mp hx
    have hvalues : (Layer.group [(f.1, f.2.core)]).valuesOf f.1 = [f.2.core] := by
      simp [Layer.valuesOf]
    refine ⟨f.2.core, List.lookup_cons_self, ?_⟩
    rw [layers_function hf, visible_push_of_hidden hhidden]
    exact hvalues
  | none =>
    obtain ⟨c, hc⟩ := Option.ne_none_iff_exists'.mp
      (mt (lookup_bindings_eq_none_iff (c := v.core)).mp (not_not_intro hx))
    refine ⟨c, hc, ?_⟩
    rw [layers_define hf, visible_append, hhidden, visible_map_binding, hc]
    rfl

theorem betweenRuns_before_functions (before : List (Expr String)) {run : List (Expr String)}
    (h : startsWithFunction run = true) :
    BetweenRuns (before.rdropWhile isFunctionDefinition) run := by
  intro a ha
  have hne : before.rdropWhile isFunctionDefinition ≠ [] := by
    intro hnil
    rw [hnil] at ha
    cases ha
  have hlast := List.rdropWhile_last_not isFunctionDefinition before hne
  rw [List.getLast?_eq_some_getLast hne] at ha
  cases ha
  cases run with
  | nil => cases h
  | cons b run =>
    have hb : b.isFunctionDefinition = true := h
    show joins _ b = false
    rw [joins, Bool.eq_false_iff.mpr hlast, isDefinition_of_isFunctionDefinition hb,
      Bool.false_and, Bool.not_true, Bool.and_false]
    rfl

theorem betweenRuns_of_not_function (before : List (Expr String)) {p : Pattern String}
    {v : Expr String} {s : Span}
    (h : (define p v s).isFunctionDefinition = false) (us : List (Expr String)) :
    BetweenRuns before (define p v s :: us) := by
  intro a _
  show joins a _ = false
  rw [joins, h, Bool.and_false]
  exact Bool.and_false _

/-- **The last definition of a name decides what it stands for behind it**, whatever the statements
in front of it are, unless it goes on a run of functions that defines the name before. -/
theorem visible_layers {x : String} {p : Pattern String} (hx : x ∈ p.boundNames) {v : Expr String}
    {s : Span} {before between : List (Expr String)} (hbetween : ∀ e ∈ between, x ∉ e.defines)
    (hrun : (define p v s).isFunctionDefinition = true →
      ∀ e ∈ before.rtakeWhile isFunctionDefinition, x ∉ e.defines) :
    ∃ c, (p.bindings v.core).reverse.lookup x = some c ∧
      visible x (layers (before ++ define p v s :: between)) = [c] := by
  obtain ⟨c, hlookup, hvisible⟩ := visible_layers_define hx v s hbetween
  refine ⟨c, hlookup, ?_⟩
  cases hf : (define p v s).isFunctionDefinition with
  | false =>
    rw [layers_append (betweenRuns_of_not_function before hf between), visible_append, hvisible]
    rfl
  | true =>
    -- the functions directly before it are in its group, and what is before them is not
    let run := before.rtakeWhile isFunctionDefinition
    have hstart : startsWithFunction (run ++ define p v s :: between) = true := by
      cases hr : run with
      | nil => exact hf
      | cons e es =>
        have he : e ∈ run := by
          rw [hr]
          exact List.mem_cons_self
        show e.isFunctionDefinition = true
        exact List.mem_rtakeWhile_imp he
    have hsame : visible x (layers (run ++ define p v s :: between)) = [c] := by
      rw [visible_layers_append_of_not_mem (hrun hf), hvisible]
    have hsplit : before ++ define p v s :: between =
        before.rdropWhile isFunctionDefinition ++ (run ++ define p v s :: between) := by
      rw [← List.append_assoc, List.rdropWhile_append_rtakeWhile]
    rw [hsplit, layers_append (betweenRuns_before_functions before hstart), visible_append, hsame]
    rfl

end Expr

end TraceFront
