import TraceFront.Proofs.Core.Layers
import TraceFront.Proofs.Core.Resolution
import TraceFront.Proofs.Core.Warnings

/-!
# Groups of functions

* `Core.groups`             the groups of a term, at any depth;
* `groups_coreBlock_perm`   the groups of a statement sequence are those of its layers and those in
                            what its statements evaluate;
* `forall_groups_core`      so the groups of an expression are those of the statement sequences
                            inside it, and single functions;
* `exists_run_of_layer`     a group of a sequence is a run of functions, and every such run is part
                            of a group (`exists_layer_of_run`);
* `coreBlock_run`           a whole run of functions is one group, in its order;
* `groups_bind_functions`   what a group binds, when it binds a name once, and what a name that is
                            defined again stands for, behind the run and inside it.
-/

namespace TraceFront

namespace Core

variable {ν : Type}

mutual

/-- the groups of functions in a term, outer ones first -/
def groups : Core ν → List (List (ν × Core ν))
  | nil => []
  | literal _ => []
  | var _ => []
  | this => []
  | lambda _ b => b.groups
  | conditional p t e => p.groups ++ t.groups ++ e.groups
  | bind _ v b => v.groups ++ b.groups
  | bindGroup bs b => bs :: (groupsBindings bs ++ b.groups)
  | sequence cs => groupsAll cs
  | apply f cs => f.groups ++ groupsAll cs
  | tuple cs => groupsAll cs
  | project c _ => c.groups
  | withAddress t c => t.groups ++ c.groups
  | splice c => c.groups
  | unquote c => c.groups

def groupsAll : List (Core ν) → List (List (ν × Core ν))
  | [] => []
  | c :: cs => c.groups ++ groupsAll cs

def groupsBindings : List (ν × Core ν) → List (List (ν × Core ν))
  | [] => []
  | (_, c) :: bs => c.groups ++ groupsBindings bs

end

theorem groupsAll_eq_flatMap (cs : List (Core ν)) : groupsAll cs = cs.flatMap groups := by
  induction cs with
  | nil => rfl
  | cons c cs ih => rw [groupsAll, ih, List.flatMap_cons]

theorem groupsBindings_eq_flatMap (bs : List (ν × Core ν)) :
    groupsBindings bs = bs.flatMap (·.2.groups) := by
  induction bs with
  | nil => rfl
  | cons b bs ih => rw [groupsBindings, ih, List.flatMap_cons]

theorem groups_bindAll (bs : List (ν × Core ν)) (body : Core ν) :
    (bindAll bs body).groups = groupsBindings bs ++ body.groups := by
  induction bs with
  | nil => rfl
  | cons b bs ih => rw [bindAll_cons, groups, ih, groupsBindings, List.append_assoc]

end Core

/-! ## bindings of patterns -/

namespace Pattern

mutual

theorem groups_partBindings {c : Core String} (hc : c.groups = []) :
    ∀ p : Pattern String, Core.groupsBindings (p.partBindings c) = []
  | name n => by rw [partBindings, Core.groupsBindings, hc]; rfl
  | wildcard => rfl
  | tuple ps => by rw [partBindings, Core.groupsBindings, hc, groups_itemBindings _ 0 ps]; rfl

/-- projections hold no functions -/
theorem groups_itemBindings (w : String) :
    ∀ (i : Nat) (ps : List (Pattern String)), Core.groupsBindings (itemBindings w i ps) = []
  | _, [] => rfl
  | i, p :: ps => by
    have hp : Core.groupsBindings (p.partBindings (.project (.var w) i)) = [] :=
      groups_partBindings rfl p
    rw [itemBindings, Core.groupsBindings_eq_flatMap, List.flatMap_append,
      ← Core.groupsBindings_eq_flatMap, ← Core.groupsBindings_eq_flatMap, hp,
      groups_itemBindings w (i + 1) ps]
    rfl

end

theorem groups_projections (p : Pattern String) : Core.groupsBindings p.projections = [] := by
  cases p with
  | tuple ps => exact groups_itemBindings _ 0 ps
  | _ => rfl

theorem groups_bindings (p : Pattern String) (c : Core String) :
    Core.groupsBindings (p.bindings c) = c.groups := by
  rw [bindings_eq_cons, Core.groupsBindings, groups_projections, List.append_nil]

end Pattern

namespace Expr

/-! ## statement sequences -/

theorem groups_sequenceOf (cs : List (Core String)) :
    (sequenceOf cs).groups = Core.groupsAll cs := by
  unfold sequenceOf
  split
  · rw [Core.groupsAll, Core.groupsAll, List.append_nil]
  · rfl

/-- the groups of a sequence, by the steps in hand and the term from the next definition on -/
theorem groups_coreBlock (stmts : List (Expr String)) : (coreBlock stmts).groups =
    Core.groupsAll ((following stmts).steps ++ (following stmts).core.toList) := by
  cases hs : (following stmts).steps with
  | nil =>
    rw [coreBlock, Following.term?, hs]
    cases (following stmts).core with
    | none => rfl
    | some c => exact (List.append_nil _).symm
  | cons c cs => rw [coreBlock, getD_term?_of_steps hs, groups_sequenceOf]

/-- an expression in front has its groups in front -/
theorem groups_coreBlock_expression {e : Expr String} (h : e.isDefinition = false)
    (rest : List (Expr String)) :
    (coreBlock (e :: rest)).groups = e.core.groups ++ (coreBlock rest).groups := by
  rw [groups_coreBlock, groups_coreBlock, following_expression h]
  rfl

/-- what follows a definition has the same groups whether it is there or not -/
theorem groups_after (x : String) (rest : List (Expr String)) :
    (if rest.isEmpty then Core.var x else coreBlock rest).groups = (coreBlock rest).groups := by
  cases rest with
  | nil => rfl
  | cons e rest => rfl

/-- the groups among layers -/
def groupLayers (ls : List Layer) : List (List (String × Core String)) :=
  ls.filterMap fun l => match l with
    | .group bs => some bs
    | _ => none

theorem mem_groupLayers {bs : List (String × Core String)} {ls : List Layer} :
    bs ∈ groupLayers ls ↔ .group bs ∈ ls := by
  rw [groupLayers, List.mem_filterMap]
  constructor
  · rintro ⟨l, hl, hbs⟩
    cases l with
    | group cs =>
      cases hbs
      exact hl
    | _ => cases hbs
  · intro h
    exact ⟨.group bs, h, rfl⟩

theorem groupLayers_push_steps (cs : List (Core String)) (ls : List Layer) :
    groupLayers ((Layer.steps cs).push ls) = groupLayers ls := by
  cases ls with
  | nil => rfl
  | cons m ls => cases m <;> rfl

theorem groupLayers_append_bindings (bs : List (String × Core String)) (ls : List Layer) :
    groupLayers (bs.map (fun b => .binding b.1 b.2) ++ ls) = groupLayers ls := by
  induction bs with
  | nil => rfl
  | cons b bs ih => exact ih

/-- the groups in what the statements evaluate -/
def innerGroups (stmts : List (Expr String)) : List (List (String × Core String)) :=
  stmts.flatMap (·.content.core.groups)

/-- a maximal run of functions is a layer -/
theorem layers_run_of_functions (rest : List (Expr String)) :
    ∀ {e : Expr String} {f : String × Expr String}, e.asFunction? = some f →
      layers (e :: rest) =
        .group ((f :: functionsOf (rest.takeWhile isFunctionDefinition)).map
          fun f => (f.1, f.2.core)) :: layers (rest.dropWhile isFunctionDefinition) := by
  induction rest with
  | nil =>
    intro e f h
    rw [layers_function h]
    rfl
  | cons e' rest ih =>
    intro e f h
    rw [layers_function h]
    cases h' : e'.asFunction? with
    | none =>
      have hf := isFunctionDefinition_of_none h'
      rw [push_group_of_not_function hf, List.takeWhile_cons_of_neg (by simp [hf]),
        List.dropWhile_cons_of_neg (by simp [hf])]
      rfl
    | some f' =>
      have hf := isFunctionDefinition_of_some h'
      have hfs : functionsOf (e' :: rest.takeWhile isFunctionDefinition)
          = f' :: functionsOf (rest.takeWhile isFunctionDefinition) :=
        List.filterMap_cons_some h'
      rw [ih h', List.takeWhile_cons_of_pos hf, List.dropWhile_cons_of_pos hf, hfs]
      rfl

theorem content_function {e : Expr String} {f : String × Expr String} (h : e.asFunction? = some f) :
    e.content = f.2 := by
  obtain ⟨s, rfl, _⟩ := asFunction?_eq_some h
  rfl

/-- a function in front of a sequence: its group is the first, alone or joined to what was the
first -/
theorem groups_coreBlock_function {e : Expr String} {f : String × Expr String}
    (hf : e.asFunction? = some f) {rest : List (Expr String)}
    (h : (coreBlock rest).groups.Perm (groupLayers (layers rest) ++ innerGroups rest)) :
    ∃ bs gs inner, (coreBlock (e :: rest)).groups = bs :: (f.2.core.groups ++ inner) ∧
      groupLayers (layers (e :: rest)) = bs :: gs ∧ inner.Perm (gs ++ innerGroups rest) := by
  cases rest with
  | nil =>
    refine ⟨[(f.1, f.2.core)], [], [], ?_, ?_, .nil⟩
    · rw [coreBlock_function hf]
      show [(f.1, f.2.core)] :: ((f.2.core.groups ++ []) ++ []) = _
      rw [List.append_nil]
    · rw [layers_function hf]
      rfl
  | cons b rest =>
    rw [coreBlock_function hf, layers_function hf]
    cases hb : b.asFunction? with
    | none =>
      have hkind := isFunctionDefinition_of_none hb
      have hstart : startsWithFunction (b :: rest) = false := hkind
      refine ⟨[(f.1, f.2.core)], _, _, ?_, ?_, h⟩
      · rw [hstart, defineFunction_apart]
        show _ :: ((f.2.core.groups ++ []) ++ _) = _
        rw [List.append_nil]
        rfl
      · rw [push_group_of_not_function hkind]
        rfl
    | some g =>
      have hstart : startsWithFunction (b :: rest) = true := isFunctionDefinition_of_some hb
      rw [coreBlock_run_of_functions rest hb, layers_run_of_functions rest hb] at h
      rw [hstart, if_neg (by simp), coreBlock_run_of_functions rest hb,
        layers_run_of_functions rest hb, defineFunction_join]
      refine ⟨_, _, _, ?_, rfl, h.cons_inv⟩
      rw [Core.groups, Core.groupsBindings, List.append_assoc]
      rfl

/-- the groups of a sequence are those of its layers and those in what its statements evaluate -/
theorem groups_coreBlock_perm (stmts : List (Expr String)) :
    (coreBlock stmts).groups.Perm (groupLayers (layers stmts) ++ innerGroups stmts) := by
  induction stmts with
  | nil => exact .nil
  | cons e stmts ih =>
    -- the groups in what the first statement evaluates go behind those of the layers
    have hfront : ∀ {xs gs : List (List (String × Core String))},
        xs.Perm (gs ++ innerGroups stmts) →
        (e.content.core.groups ++ xs).Perm (gs ++ innerGroups (e :: stmts)) := by
      intro xs gs hxs
      refine (hxs.append_left _).trans ?_
      show (_ ++ (gs ++ innerGroups stmts)).Perm (gs ++ (_ ++ innerGroups stmts))
      rw [← List.append_assoc, ← List.append_assoc]
      exact List.perm_append_comm.append_right _
    rcases e.statement_cases with he | ⟨f, hf⟩ | ⟨p, v, s, rfl, hf⟩
    · rw [groups_coreBlock_expression he, layers_expression he, groupLayers_push_steps]
      have hmoved := hfront ih
      rw [content_of_not_definition he] at hmoved
      exact hmoved
    · obtain ⟨bs, gs, inner, hgroups, hlayers, hinner⟩ := groups_coreBlock_function hf ih
      have hmoved := hfront hinner
      rw [content_function hf] at hmoved
      rw [hgroups, hlayers]
      exact hmoved.cons bs
    · rw [coreBlock_define, definePattern_of_asFunction?_eq_none hf, Core.groups_bindAll,
        Pattern.groups_bindings, groups_after, layers_define hf, groupLayers_append_bindings]
      exact hfront ih

/-! ## the groups of an expression -/

section
variable {P : List (String × Core String) → Prop}
  (alone : ∀ (n : String) (v : Expr String), v.isProgram = true → P [(n, v.core)])
include alone

/-- a definition by itself is its value, and a group if the value is a function -/
theorem forall_groups_content (e : Expr String) :
    (∀ bs ∈ e.core.groups, P bs) ↔ ∀ bs ∈ e.content.core.groups, P bs := by
  rcases e.statement_cases with he | ⟨f, hf⟩ | ⟨p, v, s, rfl, hf⟩
  · rw [content_of_not_definition he]
  · obtain ⟨s, rfl, hv⟩ := asFunction?_eq_some hf
    have hcore : (define (.name f.1) f.2 s).core = .bindGroup [(f.1, f.2.core)] (.var f.1) := by
      rw [core, hv]
      rfl
    have hgroups : (define (.name f.1) f.2 s).core.groups =
        [(f.1, f.2.core)] :: f.2.core.groups := by
      rw [hcore]
      show _ :: ((f.2.core.groups ++ []) ++ []) = _
      rw [List.append_nil, List.append_nil]
    rw [hgroups, List.forall_mem_cons]
    exact and_iff_right (alone f.1 f.2 hv)
  · have hgroups : (define p v s).core.groups = v.core.groups := by
      rw [core, definePattern_of_asFunction?_eq_none hf, Core.groups_bindAll,
        Pattern.groups_bindings]
      exact List.append_nil _
    rw [hgroups]
    rfl

theorem forall_groups_sequence (stmts : List (Expr String)) :
    (∀ bs ∈ (coreBlock stmts).groups, P bs) ↔
      (∀ bs, .group bs ∈ layers stmts → P bs) ∧ ∀ e ∈ stmts, ∀ bs ∈ e.core.groups, P bs := by
  have hinner : (∀ bs ∈ innerGroups stmts, P bs) ↔ ∀ e ∈ stmts, ∀ bs ∈ e.core.groups, P bs := by
    rw [innerGroups, List.forall_mem_flatMap]
    exact forall₂_congr fun e _ => (forall_groups_content alone e).symm
  have hlayers : (∀ bs ∈ groupLayers (layers stmts), P bs) ↔
      ∀ bs, .group bs ∈ layers stmts → P bs :=
    forall_congr' fun bs => by rw [mem_groupLayers]
  rw [← hinner, ← hlayers, ← List.forall_mem_append]
  exact forall_congr' fun bs => by rw [(groups_coreBlock_perm stmts).mem_iff]

/-- the groups of an expression are those of its own statements and those of its children -/
theorem forall_groups_children (e : Expr String) :
    (∀ bs ∈ e.core.groups, P bs) ↔
      (∀ bs, .group bs ∈ layers e.ownStatements → P bs) ∧
        ∀ c ∈ e.children, ∀ bs ∈ c.core.groups, P bs := by
  have hnone : ∀ bs, Layer.group bs ∈ layers [] → P bs := fun bs h => by cases h
  cases e with
  | program p body s =>
    rw [core_program, Core.groups, Core.groups_bindAll, Pattern.groups_projections,
      List.nil_append]
    exact forall_groups_sequence alone body
  | block stmts s => exact forall_groups_sequence alone stmts
  | define p v s =>
    rw [forall_groups_content alone, children, List.forall_mem_singleton]
    exact (and_iff_right hnone).symm
  | _ =>
    refine Iff.trans ?_ (and_iff_right hnone).symm
    rw [← List.forall_mem_flatMap]
    simp [core, Core.groups, children, coreAll_eq_map, Core.groupsAll_eq_flatMap, List.flatMap_map]

theorem forall_groups_core (e : Expr String) :
    (∀ bs ∈ e.core.groups, P bs) ↔
      ∀ f ∈ e.subterms, ∀ bs, .group bs ∈ layers f.ownStatements → P bs := by
  induction e using childInduction with
  | step e ih =>
    rw [forall_groups_children alone, subterms_eq, List.forall_mem_cons, subtermsAll_eq_flatMap,
      List.forall_mem_flatMap]
    exact and_congr_right fun _ => forall₂_congr ih

end

/-! ## groups are runs of functions -/

/-- the group of a run of functions -/
def groupOf (run : List (Expr String)) : List (String × Core String) :=
  (functionsOf run).map fun f => (f.1, f.2.core)

theorem map_fst_groupOf (run : List (Expr String)) :
    (groupOf run).map (·.1) = (functionsOf run).map (·.1) := by
  rw [groupOf, List.map_map]
  rfl

theorem layers_run {e : Expr String} (h : e.isFunctionDefinition = true)
    (rest : List (Expr String)) :
    layers (e :: rest) = .group (groupOf (e :: rest.takeWhile isFunctionDefinition)) ::
      layers (rest.dropWhile isFunctionDefinition) := by
  obtain ⟨f, hf⟩ := Option.isSome_iff_exists.mp h
  have hfs : functionsOf (e :: rest.takeWhile isFunctionDefinition) =
      f :: functionsOf (rest.takeWhile isFunctionDefinition) :=
    List.filterMap_cons_some hf
  rw [layers_run_of_functions rest hf, groupOf, hfs]

/-- a group of a sequence is that of a run of functions in it -/
theorem exists_run_of_layer {bs : List (String × Core String)} {stmts : List (Expr String)}
    (h : .group bs ∈ layers stmts) : ∃ run, run ≠ [] ∧ run <:+: stmts ∧
      (∀ e ∈ run, e.isFunctionDefinition = true) ∧ bs = groupOf run := by
  induction hn : stmts.length using Nat.strongRecOn generalizing stmts with
  | ind n ih =>
    have later : ∀ {e : Expr String} {rest after : List (Expr String)}, stmts = e :: rest →
        after <:+ rest → .group bs ∈ layers after → ∃ run, run ≠ [] ∧ run <:+: stmts ∧
          (∀ e ∈ run, e.isFunctionDefinition = true) ∧ bs = groupOf run := by
      intro e rest after hs hsuffix hmem
      have hle := hsuffix.length_le
      obtain ⟨run, hne, hrun, hfunctions, hbs⟩ :=
        ih after.length (by rw [← hn, hs, List.length_cons]; omega) hmem rfl
      have hafter : after <:+ stmts := hs ▸ hsuffix.trans (List.suffix_cons e rest)
      exact ⟨run, hne, hrun.trans hafter.isInfix, hfunctions, hbs⟩
    cases stmts with
    | nil => cases h
    | cons e rest =>
      rcases e.statement_cases with he | ⟨f, hf⟩ | ⟨p, v, s, rfl, hf⟩
      · rw [layers_expression he, ← mem_groupLayers, groupLayers_push_steps, mem_groupLayers] at h
        exact later rfl (List.suffix_refl _) h
      · have he := isFunctionDefinition_of_some hf
        rw [layers_run he] at h
        rcases List.mem_cons.mp h with heq | h
        · cases heq
          refine ⟨e :: rest.takeWhile isFunctionDefinition, List.cons_ne_nil _ _, ?_, ?_, rfl⟩
          · exact (List.prefix_cons_inj e |>.mpr (List.takeWhile_prefix _)).isInfix
          · exact List.forall_mem_cons.mpr ⟨he, List.all_eq_true.mp List.all_takeWhile⟩
        · exact later rfl (List.dropWhile_suffix _) h
      · rw [layers_define hf, ← mem_groupLayers, groupLayers_append_bindings, mem_groupLayers] at h
        exact later rfl (List.suffix_refl _) h

/-- a layer in front keeps the groups, or makes the first one longer -/
theorem exists_group_push (l : Layer) {bs : List (String × Core String)} {ls : List Layer}
    (h : .group bs ∈ ls) : ∃ cs, .group cs ∈ l.push ls ∧ bs.Sublist cs := by
  cases ls with
  | nil => cases h
  | cons m ls =>
    cases l with
    | steps cs =>
      rw [← mem_groupLayers, ← groupLayers_push_steps cs, mem_groupLayers] at h
      exact ⟨bs, h, List.Sublist.refl _⟩
    | binding n v => exact ⟨bs, List.mem_cons_of_mem _ h, List.Sublist.refl _⟩
    | group as =>
      cases m with
      | group cs =>
        rcases List.mem_cons.mp h with heq | h
        · cases heq
          exact ⟨as ++ bs, List.mem_cons_self, List.sublist_append_right _ _⟩
        · exact ⟨bs, List.mem_cons_of_mem _ h, List.Sublist.refl _⟩
      | steps ds => exact ⟨bs, List.mem_cons_of_mem _ h, List.Sublist.refl _⟩
      | binding n v => exact ⟨bs, List.mem_cons_of_mem _ h, List.Sublist.refl _⟩

theorem exists_group_foldr_push (as : List Layer) {bs : List (String × Core String)}
    {ls : List Layer} (h : .group bs ∈ ls) :
    ∃ cs, .group cs ∈ as.foldr Layer.push ls ∧ bs.Sublist cs := by
  induction as with
  | nil => exact ⟨bs, h, List.Sublist.refl _⟩
  | cons l as ih =>
    obtain ⟨cs, hcs, hsub⟩ := ih
    obtain ⟨ds, hds, hsub'⟩ := exists_group_push l hcs
    exact ⟨ds, hds, hsub.trans hsub'⟩

/-- a run of functions is part of a group -/
theorem exists_layer_of_run {run stmts : List (Expr String)} (hne : run ≠ [])
    (hrun : run <:+: stmts) (h : ∀ e ∈ run, e.isFunctionDefinition = true) :
    ∃ bs, .group bs ∈ layers stmts ∧ (groupOf run).Sublist bs := by
  induction stmts with
  | nil => exact absurd (List.infix_nil.mp hrun) hne
  | cons e stmts ih =>
    rcases List.infix_cons_iff.mp hrun with hprefix | hrun
    · obtain ⟨e', run, rfl⟩ := List.exists_cons_of_ne_nil hne
      obtain ⟨rfl, after, rfl⟩ := List.cons_prefix_cons.mp hprefix
      obtain ⟨he, hfunctions⟩ := List.forall_mem_cons.mp h
      rw [layers_run he, List.takeWhile_append_of_pos hfunctions]
      refine ⟨_, List.mem_cons_self, ?_⟩
      have hsub : (e' :: run).Sublist (e' :: (run ++ after.takeWhile isFunctionDefinition)) :=
        (List.sublist_append_left _ _).cons_cons e'
      exact (hsub.filterMap _).map _
    · obtain ⟨bs, hbs, hsub⟩ := ih hrun
      obtain ⟨cs, hcs, hsub'⟩ := exists_group_foldr_push e.ownLayers hbs
      exact ⟨cs, hcs, hsub.trans hsub'⟩

/-- functions only are one layer: their group, in their order -/
theorem layers_of_functions {run : List (Expr String)} (hne : run ≠ [])
    (h : ∀ e ∈ run, e.isFunctionDefinition = true) : layers run = [.group (groupOf run)] := by
  obtain ⟨e, run, rfl⟩ := List.exists_cons_of_ne_nil hne
  obtain ⟨he, hfunctions⟩ := List.forall_mem_cons.mp h
  rw [layers_run he, List.takeWhile_eq_self_iff.mpr hfunctions,
    List.dropWhile_eq_nil_iff.mpr hfunctions]
  rfl

theorem BetweenRuns.append_left {us vs : List (Expr String)} (hne : us ≠ [])
    (before : List (Expr String)) (h : BetweenRuns us vs) : BetweenRuns (before ++ us) vs := by
  rw [BetweenRuns, List.getLast?_append_of_ne_nil _ hne]
  exact h

/-- a whole run of functions is one group, in its order, between the layers of the statements before
it and the term of those behind it -/
theorem coreBlock_run {before run after : List (Expr String)} (hne : run ≠ [])
    (h : ∀ e ∈ run, e.isFunctionDefinition = true) (hbefore : BetweenRuns before run)
    (hafter : BetweenRuns run after) :
    coreBlock (before ++ run ++ after) =
      enclose (layers before ++ [.group (groupOf run)]) (termAfter run after) := by
  have hlast : (before ++ run).getLast? = run.getLast? := List.getLast?_append_of_ne_nil _ hne
  have hterm : termAfter (before ++ run) after = termAfter run after := by
    unfold termAfter
    rw [hlast]
  rw [coreBlock_append (hafter.append_left hne before), layers_append hbefore,
    layers_of_functions hne h, hterm]

theorem valuesOf_group (x : String) (run : List (Expr String)) :
    (Layer.group (groupOf run)).valuesOf x =
      ((functionsOf run).filter (·.1 = x)).map (·.2.core) := by
  rw [Layer.valuesOf, groupOf, List.filter_map, List.map_map]
  rfl

/-- inside a group, the names that it binds stand for its own functions -/
theorem visible_in_group {f : String × Expr String} {run : List (Expr String)}
    (h : f ∈ functionsOf run) (ls : List Layer) :
    visible f.1 (ls ++ [.group (groupOf run)]) =
      ((functionsOf run).filter (·.1 = f.1)).map (·.2.core) := by
  have hmem : f ∈ (functionsOf run).filter (·.1 = f.1) :=
    List.mem_filter.mpr ⟨h, decide_eq_true rfl⟩
  have hgroup : visible f.1 [.group (groupOf run)] =
      ((functionsOf run).filter (·.1 = f.1)).map (·.2.core) := valuesOf_group f.1 run
  have hne : ¬(((functionsOf run).filter (·.1 = f.1)).map (·.2.core)).isEmpty = true := by
    rw [List.isEmpty_iff, List.map_eq_nil_iff]
    exact List.ne_nil_of_mem hmem
  rw [visible_append, hgroup, if_neg hne]

/-- the groups of a sequence bind each name once exactly if no run of functions in it defines a name
twice -/
theorem nodup_layers_iff (stmts : List (Expr String)) :
    (∀ bs, .group bs ∈ layers stmts → (bs.map (·.1)).Nodup) ↔
      ∀ run, run <:+: stmts → (∀ e ∈ run, e.isFunctionDefinition = true) →
        ((functionsOf run).map (·.1)).Nodup := by
  constructor
  · intro h run hrun hfunctions
    by_cases hne : run = []
    · rw [hne]
      exact List.nodup_nil
    · obtain ⟨bs, hbs, hsub⟩ := exists_layer_of_run hne hrun hfunctions
      rw [← map_fst_groupOf]
      exact (h bs hbs).sublist (hsub.map _)
  · intro h bs hbs
    obtain ⟨run, _, hrun, hfunctions, rfl⟩ := exists_run_of_layer hbs
    rw [map_fst_groupOf]
    exact h run hrun hfunctions

theorem exists_lambda_of_isProgram {v : Expr String} (h : v.isProgram = true) :
    ∃ n c, v.core = .lambda n c := by
  cases v with
  | program p body s => exact ⟨_, _, rfl⟩
  | _ => cases h

/-- a group of a sequence binds at least one name, and functions only -/
theorem functions_of_layer {bs : List (String × Core String)} {stmts : List (Expr String)}
    (h : .group bs ∈ layers stmts) : bs ≠ [] ∧ ∀ b ∈ bs, ∃ n c, b.2 = .lambda n c := by
  obtain ⟨run, hne, _, hfunctions, rfl⟩ := exists_run_of_layer h
  constructor
  · obtain ⟨e, run, rfl⟩ := List.exists_cons_of_ne_nil hne
    obtain ⟨f, hf⟩ := Option.isSome_iff_exists.mp (hfunctions e List.mem_cons_self)
    have hfs : functionsOf (e :: run) = f :: functionsOf run := List.filterMap_cons_some hf
    rw [groupOf, hfs]
    exact List.cons_ne_nil _ _
  · intro b hb
    obtain ⟨f, hf, rfl⟩ := List.mem_map.mp hb
    obtain ⟨e, _, hef⟩ := List.mem_filterMap.mp hf
    obtain ⟨_, _, hprogram⟩ := asFunction?_eq_some hef
    exact exists_lambda_of_isProgram hprogram

/-- **Groups bind functions, each name once where no run defines it twice.**  Every group of the
core term of an expression binds at least one name, and functions only.  All of them bind each name
once exactly if no run of functions, one definition directly after the other, defines a name twice.
Behind the last definition of a name, the name stands for what this definition gives it, unless the
run of functions that it goes on defines the name before.  And a whole run of functions is one
group, in the order of the definitions: inside it, a name that it defines stands for what the run
gives it, whatever the name stands for before. -/
theorem groups_bind_functions :
    (∀ e : Expr String, ∀ bs ∈ e.core.groups, bs ≠ [] ∧ ∀ b ∈ bs, ∃ n c, b.2 = .lambda n c) ∧
    (∀ e : Expr String, (∀ bs ∈ e.core.groups, (bs.map (·.1)).Nodup) ↔
      ∀ f ∈ e.subterms, ∀ run, run <:+: f.ownStatements →
        (∀ g ∈ run, g.isFunctionDefinition = true) → ((functionsOf run).map (·.1)).Nodup) ∧
    (∀ (x : String) (p : Pattern String) (v : Expr String) (s : Span)
        (before between rest : List (Expr String)),
      x ∈ p.boundNames → (∀ e ∈ between, x ∉ e.defines) →
      ((define p v s).isFunctionDefinition = true →
        ∀ e ∈ before.rtakeWhile isFunctionDefinition, x ∉ e.defines) →
      BetweenRuns (before ++ define p v s :: between) rest →
      ∃ ls c, coreBlock (before ++ define p v s :: between ++ rest) =
          enclose ls (termAfter (before ++ define p v s :: between) rest) ∧
        (p.bindings v.core).reverse.lookup x = some c ∧ visible x ls = [c]) ∧
    ∀ before run after : List (Expr String), run ≠ [] →
      (∀ e ∈ run, e.isFunctionDefinition = true) → BetweenRuns before run →
      BetweenRuns run after →
      coreBlock (before ++ run ++ after) =
        enclose (layers before ++ [.group ((functionsOf run).map fun f => (f.1, f.2.core))])
          (termAfter run after) ∧
      ∀ f ∈ functionsOf run,
        visible f.1 (layers before ++ [.group ((functionsOf run).map fun f => (f.1, f.2.core))]) =
          ((functionsOf run).filter (·.1 = f.1)).map (·.2.core) := by
  refine ⟨fun e => ?_, fun e => ?_, ?_, ?_⟩
  · refine (forall_groups_core (fun n v hv => ?_) e).mpr fun f _ bs => functions_of_layer
    exact ⟨List.cons_ne_nil _ _, List.forall_mem_singleton.mpr (exists_lambda_of_isProgram hv)⟩
  · have halone : ∀ (n : String) (v : Expr String), v.isProgram = true →
        (([(n, v.core)] : List (String × Core String)).map (·.1)).Nodup :=
      fun n v _ => List.nodup_singleton n
    rw [forall_groups_core halone]
    exact forall₂_congr fun f _ => nodup_layers_iff f.ownStatements
  · intro x p v s before between rest hx hbetween hrun hcut
    obtain ⟨c, hlookup, hvisible⟩ := visible_layers (v := v) (s := s) hx hbetween hrun
    exact ⟨_, c, coreBlock_append hcut, hlookup, hvisible⟩
  · intro before run after hne hfunctions hbefore hafter
    exact ⟨coreBlock_run hne hfunctions hbefore hafter, fun f hf => visible_in_group hf _⟩

/-- a function that is defined again behind an expression, with another that goes on its run -/
theorem groups_bind_functions_defined_again :
    let s : Span := ⟨0, 0⟩
    let one := program (.name "x") [literal (.int 1) s] s
    let two := program (.name "x") [literal (.int 2) s] s
    let calls := program (.name "x") [apply (var "f" s) [] s] s
    let before := [define (.name "f") one s, apply (var "f" s) [] s]
    let between := [define (.name "g") calls s]
    let rest := [apply (var "f" s) [] s]
    let run := define (.name "f") two s :: between
    let e := block (before ++ run ++ rest) s
    (∀ bs ∈ e.core.groups, bs ≠ [] ∧ ∀ b ∈ bs, ∃ n c, b.2 = .lambda n c) ∧
    "f" ∈ (Pattern.name "f").boundNames ∧
    (∀ e ∈ between, "f" ∉ e.defines) ∧
    (∀ e ∈ before.rtakeWhile isFunctionDefinition, "f" ∉ e.defines) ∧
    BetweenRuns (before ++ run) rest ∧
    (∃ ls c, coreBlock (before ++ run ++ rest) = enclose ls (termAfter (before ++ run) rest) ∧
      ((Pattern.name "f").bindings two.core).reverse.lookup "f" = some c ∧
      visible "f" ls = [c]) ∧
    (∀ e ∈ run, e.isFunctionDefinition = true) ∧ BetweenRuns before run ∧ BetweenRuns run rest ∧
    coreBlock (before ++ run ++ rest) =
      enclose (layers before ++ [.group [("f", two.core), ("g", calls.core)]])
        (termAfter run rest) ∧
    visible "f" (layers before ++ [.group [("f", two.core), ("g", calls.core)]]) =
      [two.core] := by
  intro s one two calls before between rest run e
  obtain ⟨hfunctions, _, hvisible, hgroup⟩ := groups_bind_functions
  have hname : "f" ∈ (Pattern.name "f").boundNames := List.mem_cons_self
  have hbetween : ∀ e ∈ between, "f" ∉ e.defines := by decide
  have hrun : ∀ e ∈ before.rtakeWhile isFunctionDefinition, "f" ∉ e.defines :=
    List.forall_mem_nil _
  have hcut : BetweenRuns (before ++ run) rest := by
    rintro a ⟨⟩
    rfl
  have hkind : ∀ e ∈ run, e.isFunctionDefinition = true := by decide
  have hbefore : BetweenRuns before run := by
    rintro a ⟨⟩
    rfl
  have hafter : BetweenRuns run rest := by
    rintro a ⟨⟩
    rfl
  obtain ⟨hterm, hinside⟩ :=
    hgroup before run rest (List.cons_ne_nil _ _) hkind hbefore hafter
  exact ⟨hfunctions e, hname, hbetween, hrun, hcut,
    hvisible "f" _ two s before between rest hname hbetween (fun _ => hrun) hcut, hkind, hbefore,
    hafter, hterm, hinside ("f", two) List.mem_cons_self⟩

/-- two functions of one name in one run: their group binds the name twice, and neither is the one
that it stands for -/
theorem group_of_function_defined_twice :
    let source := "(block (define f (program x 1)) (define f (program x 2)) (f 0))"
    let one : Core String := .lambda "x" (.literal (.int 1))
    let two : Core String := .lambda "x" (.literal (.int 2))
    let rest : Core String := .apply (.var "f") [.literal (.int 0)]
    ∃ e, parse source = .ok [e] ∧ e.core = enclose [.group [("f", one), ("f", two)]] rest ∧
      [("f", one), ("f", two)] ∈ e.core.groups ∧
      ¬([("f", one), ("f", two)].map (·.1)).Nodup ∧
      visible "f" [.group [("f", one), ("f", two)]] = [one, two] := by
  intro source one two rest
  have hread : read source = .ok [.list [.symbol "block" ⟨1, 6⟩,
      .list [.symbol "define" ⟨8, 14⟩, .symbol "f" ⟨15, 16⟩, .list [.symbol "program" ⟨18, 25⟩,
        .symbol "x" ⟨26, 27⟩, .literal (.int 1) ⟨28, 29⟩] ⟨17, 30⟩] ⟨7, 31⟩,
      .list [.symbol "define" ⟨33, 39⟩, .symbol "f" ⟨40, 41⟩, .list [.symbol "program" ⟨43, 50⟩,
        .symbol "x" ⟨51, 52⟩, .literal (.int 2) ⟨53, 54⟩] ⟨42, 55⟩] ⟨32, 56⟩,
      .list [.symbol "f" ⟨58, 59⟩, .literal (.int 0) ⟨60, 61⟩] ⟨57, 62⟩] ⟨0, 63⟩] := by
    decide +kernel
  have hparse : parse source = .ok [block [
      define (.name "f") (program (.name "x") [literal (.int 1) ⟨28, 29⟩] ⟨17, 30⟩) ⟨7, 31⟩,
      define (.name "f") (program (.name "x") [literal (.int 2) ⟨53, 54⟩] ⟨42, 55⟩) ⟨32, 56⟩,
      apply (var "f" ⟨58, 59⟩) [literal (.int 0) ⟨60, 61⟩] ⟨57, 62⟩] ⟨0, 63⟩] :=
    parse_of_read hread rfl
  exact ⟨_, hparse, rfl, List.mem_cons_self, by decide, rfl⟩

end Expr

end TraceFront
