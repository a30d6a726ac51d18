import TraceFront.Proofs.Core.Free
import TraceFront.Proofs.Pattern.Naming

/-!
# Where the parts of a pattern come from

The bindings of a pattern take each part from the name of the tuple around it.  Equal tuples in one
pattern have equal names, so that a name may be bound several times over, and a projection takes from
the last tuple of that name.

* `part?`                  the part of a pattern at a path of positions;
* `parts`                  all parts other than wildcards with their paths, a tuple before its parts;
* `Drawn`                  a part and the binding that it should have;
* `environment`            what names stand for after bindings, each projection resolved by the last
                           binding before it;
* `environment_bindings`   every part stands for its component of the whole value;
* `length_part?_lt`        a part has a shorter name than what it is inside of.

The paths of parts are in lexicographic order, so what is bound between a tuple and one of its
components is inside the tuple.  There names are shorter, and none of them is the tuple's.
-/

namespace TraceFront

/-! ## resolving names -/

namespace Core

/-- the component of a term at a path of positions -/
def along (c : Core String) (path : List Nat) : Core String := path.foldl .project c

/-- a projection from a name, with what the name stands for; any other term as it is -/
def resolveIn (env : List (String × Core String)) : Core String → Core String
  | project (var s) k =>
    match env.lookup s with
    | some c => project c k
    | none => project (var s) k
  | c => c

theorem resolveIn_nil (c : Core String) : c.resolveIn [] = c := by
  unfold resolveIn
  split
  · rfl
  · rfl

theorem resolveIn_project {env : List (String × Core String)} {s : String} {c : Core String}
    (h : env.lookup s = some c) (k : Nat) : (project (var s) k).resolveIn env = project c k := by
  simp only [resolveIn, h]

/-- one more binding, in front of the earlier ones -/
def extend (env : List (String × Core String)) (b : String × Core String) :
    List (String × Core String) := (b.1, b.2.resolveIn env) :: env

/-- what names stand for after bindings, the last one first -/
def environment (bs : List (String × Core String)) : List (String × Core String) :=
  bs.foldl extend []

end Core

theorem lookup_append_of_ne {s : String} {xs : List (String × Core String)}
    (h : ∀ b ∈ xs, b.1 ≠ s) (env : List (String × Core String)) :
    (xs ++ env).lookup s = env.lookup s := by
  have hnone : xs.lookup s = none := by
    refine List.lookup_eq_none_iff.mpr ?_
    intro b hb
    simpa using (h b hb).symm
  rw [List.lookup_append, hnone, Option.none_or]

namespace Pattern

/-! ## parts -/

/-- the part of a pattern at a path of positions -/
def part? : Pattern String → List Nat → Option (Pattern String)
  | p, [] => some p
  | tuple ps, i :: path =>
    match ps[i]? with
    | some p => p.part? path
    | none => none
  | _, _ :: _ => none

theorem part?_tuple_cons {ps : List (Pattern String)} {i : Nat} {p : Pattern String}
    (h : ps[i]? = some p) (path : List Nat) : (tuple ps).part? (i :: path) = p.part? path := by
  rw [part?, h]

/-- a part below is a part of a component -/
theorem part?_cons_cases {p q : Pattern String} {i : Nat} {path : List Nat}
    (h : p.part? (i :: path) = some q) :
    ∃ ps c, p = tuple ps ∧ ps[i]? = some c ∧ c.part? path = some q := by
  cases p with
  | name n => cases h
  | wildcard => cases h
  | tuple ps =>
    cases hi : ps[i]? with
    | none =>
      rw [part?, hi] at h
      cases h
    | some c =>
      rw [part?_tuple_cons hi] at h
      exact ⟨ps, c, rfl, hi, h⟩

theorem part?_append {p a : Pattern String} {path : List Nat} (h : p.part? path = some a)
    (rest : List Nat) : p.part? (path ++ rest) = a.part? rest := by
  induction path generalizing p with
  | nil =>
    cases h
    rfl
  | cons i path ih =>
    obtain ⟨ps, c, rfl, hi, hc⟩ := part?_cons_cases h
    rw [List.cons_append, part?_tuple_cons hi]
    exact ih hc

mutual

/-- the parts of a pattern other than wildcards with their paths, a tuple before its parts -/
def parts : Pattern String → List (List Nat × Pattern String)
  | name n => [([], name n)]
  | wildcard => []
  | tuple ps => ([], tuple ps) :: itemParts 0 ps

/-- the parts of the components of a tuple from position `index` on -/
def itemParts (index : Nat) : List (Pattern String) → List (List Nat × Pattern String)
  | [] => []
  | p :: ps => p.parts.map (fun l => (index :: l.1, l.2)) ++ itemParts (index + 1) ps

end

theorem parts_eq_cons {p : Pattern String} (hp : p ≠ wildcard) :
    p.parts = ([], p) :: p.parts.tail := by
  cases p with
  | wildcard => exact absurd rfl hp
  | name n => rfl
  | tuple ps => rfl

theorem eq_iff_root {p q : Pattern String} (hp : p ≠ wildcard) :
    q = p ↔ p.part? [] = some q ∧ q ≠ wildcard := by
  constructor
  · rintro rfl
    exact ⟨rfl, hp⟩
  · exact fun h => (Option.some.inj h.1).symm

mutual

theorem mem_parts : ∀ {p q : Pattern String} {path : List Nat},
    (path, q) ∈ p.parts ↔ p.part? path = some q ∧ q ≠ wildcard
  | name n, q, [] => by
    rw [← eq_iff_root (p := name n) (by simp)]
    simp [parts]
  | name n, q, i :: path => by simp [parts, part?]
  | wildcard, q, [] => by
    simp only [parts, part?, List.not_mem_nil, Option.some.injEq, false_iff]
    rintro ⟨rfl, hq⟩
    exact hq rfl
  | wildcard, q, i :: path => by simp [parts, part?]
  | tuple ps, q, [] => by
    have hbelow : ([], q) ∉ itemParts 0 ps := by
      intro h
      obtain ⟨j, p, path, _, hpath, _⟩ := mem_itemParts.mp h
      cases hpath
    rw [← eq_iff_root (p := tuple ps) (by simp)]
    simp [parts, hbelow]
  | tuple ps, q, i :: path => by
    have hmem : (i :: path, q) ∈ (tuple ps).parts ↔ (i :: path, q) ∈ itemParts 0 ps := by
      simp [parts]
    rw [hmem, mem_itemParts]
    constructor
    · rintro ⟨j, p, path', hj, hpath, hpart, hq⟩
      rw [Nat.zero_add] at hpath
      obtain ⟨rfl, rfl⟩ := List.cons.inj hpath
      exact ⟨(part?_tuple_cons hj path).trans hpart, hq⟩
    · rintro ⟨h, hq⟩
      obtain ⟨ps', c, hps, hi, hc⟩ := part?_cons_cases h
      cases hps
      exact ⟨i, c, path, hi, by rw [Nat.zero_add], hc, hq⟩

theorem mem_itemParts :
    ∀ {ps : List (Pattern String)} {index : Nat} {q : Pattern String} {path : List Nat},
    (path, q) ∈ itemParts index ps ↔
      ∃ j p path', ps[j]? = some p ∧ path = (index + j) :: path' ∧ p.part? path' = some q ∧
        q ≠ wildcard
  | [], index, q, path => by simp [itemParts]
  | p :: ps, index, q, path => by
    rw [itemParts, List.mem_append, List.mem_map, mem_itemParts]
    constructor
    · rintro (⟨l, hl, heq⟩ | ⟨j, c, path', hj, rfl, hc⟩)
      · obtain ⟨rfl, rfl⟩ := Prod.mk.inj heq
        exact ⟨0, p, l.1, rfl, rfl, mem_parts.mp hl⟩
      · exact ⟨j + 1, c, path', hj, by rw [Nat.add_assoc, Nat.add_comm 1 j], hc⟩
    · rintro ⟨j, c, path', hj, rfl, hc⟩
      cases j with
      | zero =>
        cases hj
        exact .inl ⟨(path', q), mem_parts.mpr hc, rfl⟩
      | succ j =>
        exact .inr ⟨j, c, path', hj, by rw [Nat.add_assoc, Nat.add_comm 1 j], hc⟩

end

mutual

/-- a tuple comes before its parts, and a component before the next -/
theorem pairwise_parts : ∀ p : Pattern String, p.parts.Pairwise fun l m => l.1 < m.1
  | name n => List.pairwise_singleton _ _
  | wildcard => .nil
  | tuple ps => by
    refine List.pairwise_cons.mpr ⟨?_, pairwise_itemParts 0 ps⟩
    rintro ⟨path, q⟩ hl
    obtain ⟨j, p, path', _, rfl, _⟩ := mem_itemParts.mp hl
    exact List.nil_lt_cons _ _

theorem pairwise_itemParts : ∀ (index : Nat) (ps : List (Pattern String)),
    (itemParts index ps).Pairwise fun l m => l.1 < m.1
  | _, [] => .nil
  | index, p :: ps => by
    refine List.pairwise_append.mpr ⟨?_, pairwise_itemParts (index + 1) ps, ?_⟩
    · refine List.pairwise_map.mpr ((pairwise_parts p).imp ?_)
      intro l m hlm
      exact List.cons_lt_cons_iff.mpr (.inr ⟨rfl, hlm⟩)
    · intro l hl m hm
      obtain ⟨l', _, rfl⟩ := List.mem_map.mp hl
      obtain ⟨path, q⟩ := m
      obtain ⟨j, c, path', _, rfl, _⟩ := mem_itemParts.mp hm
      exact List.cons_lt_cons_iff.mpr (.inl (by omega))

end

/-! ## shorter names -/

theorem length_part?_lt {p q : Pattern String} {i : Nat} {path : List Nat}
    (h : p.part? (i :: path) = some q) : q.wholeName.length < p.wholeName.length := by
  induction path generalizing p i with
  | nil =>
    obtain ⟨ps, c, rfl, hi, hc⟩ := part?_cons_cases h
    cases hc
    exact length_wholeName_lt (List.mem_of_getElem? hi)
  | cons j path ih =>
    obtain ⟨ps, c, rfl, hi, hc⟩ := part?_cons_cases h
    have hcomponent := length_wholeName_lt (List.mem_of_getElem? hi)
    have hbelow := ih hc
    omega

theorem wholeName_ne_of_part? {p q : Pattern String} {path : List Nat} (hpath : path ≠ [])
    (h : p.part? path = some q) : q.wholeName ≠ p.wholeName := by
  cases path with
  | nil => exact absurd rfl hpath
  | cons i path =>
    intro hname
    have hlt := length_part?_lt h
    rw [hname] at hlt
    omega

theorem length_le_of_mem_parts {p : Pattern String} {l : List Nat × Pattern String}
    (h : l ∈ p.parts) : l.2.wholeName.length ≤ p.wholeName.length := by
  obtain ⟨path, q⟩ := l
  have hpart := (mem_parts.mp h).1
  cases path with
  | nil =>
    cases hpart
    exact Nat.le_refl _
  | cons i path => exact Nat.le_of_lt (length_part?_lt hpart)

/-! ## each part and its binding -/

/-- a part with its path, and its binding: the whole value, or a component of the tuple around it -/
inductive Drawn (p : Pattern String) (value : Core String) :
    List Nat × Pattern String → String × Core String → Prop
  | whole : Drawn p value ([], p) (p.wholeName, value)
  | component {path : List Nat} {k : Nat} {a q : Pattern String} : p.part? path = some a →
      Drawn p value (path ++ [k], q) (q.wholeName, .project (.var a.wholeName) k)

theorem Drawn.name_eq {p : Pattern String} {value : Core String} {l : List Nat × Pattern String}
    {b : String × Core String} (h : Drawn p value l b) : b.1 = l.2.wholeName := by
  cases h <;> rfl

/-- what is drawn from a component is drawn from the tuple -/
theorem Drawn.of_item {ps : List (Pattern String)} {i : Nat} {p : Pattern String}
    (hi : ps[i]? = some p)
    {value : Core String} {l : List Nat × Pattern String} {b : String × Core String}
    (h : Drawn p (.project (.var (tuple ps).wholeName) i) l b) :
    Drawn (tuple ps) value (i :: l.1, l.2) b := by
  cases h with
  | whole =>
    show Drawn (tuple ps) value ([] ++ [i], p) _
    exact .component rfl
  | @component path k a q ha =>
    show Drawn (tuple ps) value ((i :: path) ++ [k], q) _
    exact .component ((part?_tuple_cons hi path).trans ha)

mutual

theorem drawn_partBindings (value : Core String) :
    ∀ p : Pattern String, List.Forall₂ (Drawn p value) p.parts (p.partBindings value)
  | name n => .cons .whole .nil
  | wildcard => .nil
  | tuple ps => .cons .whole (drawn_itemBindings value 0 ps ps fun _ => by rw [Nat.zero_add])

theorem drawn_itemBindings (value : Core String) :
    ∀ (index : Nat) (all ps : List (Pattern String)), (∀ j, ps[j]? = all[index + j]?) →
      List.Forall₂ (Drawn (tuple all) value) (itemParts index ps)
        (itemBindings (tuple all).wholeName index ps)
  | _, _, [], _ => .nil
  | index, all, p :: ps, h => by
    have hfirst : all[index]? = some p := (h 0).symm
    have hrest : ∀ j, ps[j]? = all[index + 1 + j]? := by
      intro j
      rw [Nat.add_assoc, Nat.add_comm 1 j]
      exact h (j + 1)
    refine List.rel_append ?_ (drawn_itemBindings value (index + 1) all ps hrest)
    refine List.forall₂_map_left_iff.mpr ?_
    exact (drawn_partBindings _ p).imp fun _ _ hd => hd.of_item hfirst

end

/-! ## what the parts stand for -/

/-- the parts of a pattern with what they are of a value -/
def standing (p : Pattern String) (value : Core String) : List (String × Core String) :=
  p.parts.map fun l => (l.2.wholeName, value.along l.1)

mutual

theorem foldl_partBindings : ∀ (p : Pattern String) (value : Core String)
    (env : List (String × Core String)),
    (p.partBindings value).foldl Core.extend env =
      (p.standing (value.resolveIn env)).reverse ++ env
  | name n, value, env => rfl
  | wildcard, value, env => rfl
  | tuple ps, value, env => by
    have hlookup : ((((tuple ps).wholeName, value.resolveIn env) :: env).lookup
        (tuple ps).wholeName) = some (value.resolveIn env) := List.lookup_cons_self
    have hitems := foldl_itemBindings 0 ps hlookup fun p hp => length_wholeName_lt hp
    rw [partBindings, List.foldl_cons]
    show (itemBindings _ 0 ps).foldl Core.extend (((tuple ps).wholeName, value.resolveIn env) :: env) = _
    rw [hitems, standing, parts, List.map_cons, List.reverse_cons, List.append_assoc]
    rfl

/-- the name of the tuple keeps its meaning, since the names inside are shorter -/
theorem foldl_itemBindings : ∀ (index : Nat) (ps : List (Pattern String))
    {env : List (String × Core String)} {whole : String} {value : Core String},
    env.lookup whole = some value → (∀ p ∈ ps, p.wholeName.length < whole.length) →
    (itemBindings whole index ps).foldl Core.extend env =
      ((itemParts index ps).map fun l => (l.2.wholeName, value.along l.1)).reverse ++ env
  | _, [], _, _, _, _, _ => rfl
  | index, p :: ps, env, whole, value, hlookup, hshorter => by
    obtain ⟨hp, hps⟩ := List.forall_mem_cons.mp hshorter
    have hother : ∀ b ∈ (p.standing (value.project index)).reverse, b.1 ≠ whole := by
      intro b hb
      obtain ⟨l, hl, rfl⟩ := List.mem_map.mp (List.mem_reverse.mp hb)
      have hle := length_le_of_mem_parts hl
      intro hname
      have hname : l.2.wholeName = whole := hname
      rw [hname] at hle
      omega
    have hkept := (lookup_append_of_ne hother env).trans hlookup
    rw [itemBindings, List.foldl_append, foldl_partBindings p, Core.resolveIn_project hlookup,
      foldl_itemBindings (index + 1) ps hkept hps, itemParts, List.map_append, List.reverse_append,
      List.append_assoc, List.map_map]
    rfl

end

theorem bindings_eq_partBindings {p : Pattern String} (hp : p ≠ wildcard) (value : Core String) :
    p.bindings value = p.partBindings value := by
  cases p with
  | wildcard => exact absurd rfl hp
  | name n => rfl
  | tuple ps => rfl

/-- every part stands for its component of the whole value -/
theorem environment_bindings {p : Pattern String} (hp : p ≠ wildcard) (value : Core String) :
    Core.environment (p.bindings value) = (p.standing value).reverse := by
  rw [Core.environment, bindings_eq_partBindings hp, foldl_partBindings, Core.resolveIn_nil,
    List.append_nil]

/-! ## no part hides its tuple -/

theorem not_append_lt (l r : List Nat) : ¬l ++ r < l := by
  induction l with
  | nil => exact List.not_lt_nil _
  | cons a l ih =>
    intro h
    rcases List.cons_lt_cons_iff.mp h with h | ⟨_, h⟩
    · exact Nat.lt_irrefl a h
    · exact ih h

/-- a path behind that of a tuple, and not behind that of a component, leads into the tuple -/
theorem exists_rest_of_between {l m : List Nat} {k : Nat} (hl : l < m)
    (hm : m < l ++ [k] ∨ m = l ++ [k]) : ∃ rest, rest ≠ [] ∧ m = l ++ rest := by
  induction l generalizing m with
  | nil =>
    refine ⟨m, ?_, rfl⟩
    rintro rfl
    exact List.not_lt_nil _ hl
  | cons a l ih =>
    cases m with
    | nil => exact absurd hl (List.not_lt_nil _)
    | cons b m =>
      have hfirst : b ≤ a := by
        rcases hm with h | h
        · rcases List.cons_lt_cons_iff.mp h with h | ⟨h, _⟩
          · omega
          · omega
        · have h := (List.cons.inj h).1
          omega
      rcases List.cons_lt_cons_iff.mp hl with h | ⟨rfl, hlater⟩
      · omega
      · have hrest : m < l ++ [k] ∨ m = l ++ [k] := by
          rcases hm with h | h
          · rcases List.cons_lt_cons_iff.mp h with h | ⟨_, h⟩
            · omega
            · exact .inl h
          · exact .inr (List.cons.inj h).2
        obtain ⟨rest, hne, rfl⟩ := ih hlater hrest
        exact ⟨rest, hne, rfl⟩

section
variable {p : Pattern String}

theorem path_lt_of_lt {i j : Nat} {l m : List Nat × Pattern String} (hl : p.parts[i]? = some l)
    (hm : p.parts[j]? = some m) (hij : i < j) : l.1 < m.1 := by
  obtain ⟨hi, rfl⟩ := List.getElem?_eq_some_iff.mp hl
  obtain ⟨hj, rfl⟩ := List.getElem?_eq_some_iff.mp hm
  exact List.pairwise_iff_getElem.mp (pairwise_parts p) i j hi hj hij

/-- a tuple comes before its components -/
theorem index_lt_of_component {i j : Nat} {path : List Nat} {k : Nat} {a q : Pattern String}
    (ha : p.parts[i]? = some (path, a)) (hq : p.parts[j]? = some (path ++ [k], q)) : i < j := by
  rcases Nat.lt_trichotomy i j with h | rfl | h
  · exact h
  · rw [ha] at hq
    have hpath : path = path ++ [k] := congrArg Prod.fst (Option.some.inj hq)
    have hlength := congrArg List.length hpath
    rw [List.length_append, List.length_singleton] at hlength
    omega
  · exact absurd (path_lt_of_lt hq ha h) (not_append_lt path [k])

/-- between a tuple and a component of it there are only parts with other names -/
theorem wholeName_ne_of_between {i j m : Nat} {path : List Nat} {k : Nat} {a q c : Pattern String}
    {path' : List Nat} (ha : p.parts[i]? = some (path, a))
    (hq : p.parts[j]? = some (path ++ [k], q)) (hc : p.parts[m]? = some (path', c)) (him : i < m)
    (hmj : m ≤ j) : c.wholeName ≠ a.wholeName := by
  have hafter : path < path' := path_lt_of_lt ha hc him
  have hbefore : path' < path ++ [k] ∨ path' = path ++ [k] := by
    rcases Nat.lt_or_eq_of_le hmj with h | rfl
    · exact .inl (path_lt_of_lt hc hq h)
    · rw [hc] at hq
      exact .inr (congrArg Prod.fst (Option.some.inj hq))
  obtain ⟨rest, hne, rfl⟩ := exists_rest_of_between hafter hbefore
  have hpart : p.part? (path ++ rest) = some c := (mem_parts.mp (List.mem_of_getElem? hc)).1
  rw [part?_append (mem_parts.mp (List.mem_of_getElem? ha)).1] at hpart
  exact wholeName_ne_of_part? hne hpart

end

/-! ## the bindings of a pattern -/

theorem Drawn.eq_of_component {p : Pattern String} {value : Core String} {path : List Nat} {k : Nat}
    {a q : Pattern String} {b : String × Core String} (ha : p.part? path = some a)
    (h : Drawn p value (path ++ [k], q) b) : b = (q.wholeName, .project (.var a.wholeName) k) := by
  generalize hl : (path ++ [k], q) = l at h
  cases h with
  | whole =>
    have hpath : path ++ [k] = [] := congrArg Prod.fst hl
    exact absurd hpath (by simp)
  | @component path' k' a' q' ha' =>
    obtain ⟨hpath, rfl⟩ := Prod.mk.inj hl
    obtain ⟨rfl, rfl⟩ := List.append_singleton_inj.mp hpath
    rw [ha] at ha'
    cases ha'
    rfl

/-- what the bindings of a pattern and a value are -/
structure Projected (p : Pattern String) (value : Core String) (bs : List (String × Core String)) :
    Prop where
  /-- one binding for each part, under its name and in the order of the parts -/
  names : bs.map (·.1) = p.parts.map (·.2.wholeName)
  first : bs.head? = some (p.wholeName, value)
  /-- resolved, each part is bound to its component of the value -/
  resolved : Core.environment bs =
    (p.parts.map fun l => (l.2.wholeName, value.along l.1)).reverse
  /-- a component is taken from the name of its tuple, which is not bound again before that -/
  drawn : ∀ (i j : Nat) (path : List Nat) (k : Nat) (a q : Pattern String),
    p.parts[i]? = some (path, a) → p.parts[j]? = some (path ++ [k], q) →
      i < j ∧ bs[j]? = some (q.wholeName, .project (.var a.wholeName) k) ∧
        ∀ m b, i < m → m ≤ j → bs[m]? = some b → b.1 ≠ a.wholeName
  /-- the name of the whole pattern is not bound again at all -/
  kept : ∀ b ∈ bs.tail, b.1 ≠ p.wholeName
  denoted : (Core.environment bs).lookup p.wholeName = some value

section
variable {p : Pattern String} {value : Core String}

theorem names_partBindings : (p.partBindings value).map (·.1) = p.parts.map (·.2.wholeName) := by
  have hnames : List.Forall₂ (fun l b => l.2.wholeName = b.1) p.parts (p.partBindings value) :=
    (drawn_partBindings value p).imp fun _ _ h => h.name_eq.symm
  have heq := List.forall₂_map_left_iff.mpr (List.forall₂_map_right_iff.mpr hnames)
  rw [List.forall₂_eq_eq_eq] at heq
  exact heq.symm

/-- the part at a position and the binding at that position -/
theorem exists_drawn {j : Nat} {b : String × Core String}
    (h : (p.partBindings value)[j]? = some b) :
    ∃ l, p.parts[j]? = some l ∧ Drawn p value l b := by
  have hdrawn := drawn_partBindings value p
  have hlength := hdrawn.length_eq
  obtain ⟨hj, rfl⟩ := List.getElem?_eq_some_iff.mp h
  exact ⟨p.parts[j], List.getElem?_eq_getElem (by omega), hdrawn.get (by omega) hj⟩

theorem getElem?_component {j : Nat} {path : List Nat} {k : Nat} {a q : Pattern String}
    (ha : p.part? path = some a) (hq : p.parts[j]? = some (path ++ [k], q)) :
    (p.partBindings value)[j]? = some (q.wholeName, .project (.var a.wholeName) k) := by
  have hlength := (drawn_partBindings value p).length_eq
  obtain ⟨hj, _⟩ := List.getElem?_eq_some_iff.mp hq
  have hbound : j < (p.partBindings value).length := by omega
  have hb := List.getElem?_eq_getElem hbound
  obtain ⟨l, hl, hdrawn⟩ := exists_drawn hb
  rw [hq] at hl
  cases hl
  rw [hb, hdrawn.eq_of_component ha]

theorem ne_of_mem_tail (hp : p ≠ wildcard) {l : List Nat × Pattern String} (h : l ∈ p.parts.tail) :
    l.2.wholeName ≠ p.wholeName := by
  obtain ⟨path, q⟩ := l
  have hpairwise := pairwise_parts p
  rw [parts_eq_cons hp] at hpairwise
  have hpath : [] < path := (List.pairwise_cons.mp hpairwise).1 _ h
  refine wholeName_ne_of_part? ?_ (mem_parts.mp (List.mem_of_mem_tail h)).1
  rintro rfl
  exact List.not_lt_nil _ hpath

theorem lookup_standing (hp : p ≠ wildcard) :
    (p.standing value).reverse.lookup p.wholeName = some value := by
  rw [standing, parts_eq_cons hp, List.map_cons, List.reverse_cons, lookup_append_of_ne]
  · exact List.lookup_cons_self
  · intro b hb
    obtain ⟨l, hl, rfl⟩ := List.mem_map.mp (List.mem_reverse.mp hb)
    exact ne_of_mem_tail hp hl

theorem kept_partBindings (hp : p ≠ wildcard) :
    ∀ b ∈ (p.partBindings value).tail, b.1 ≠ p.wholeName := by
  intro b hb
  have hname : b.1 ∈ ((p.partBindings value).map (·.1)).tail := by
    rw [← List.map_tail]
    exact List.mem_map_of_mem hb
  rw [names_partBindings, ← List.map_tail] at hname
  obtain ⟨l, hl, hlb⟩ := List.mem_map.mp hname
  rw [← hlb]
  exact ne_of_mem_tail hp hl

theorem projected_bindings (hp : p ≠ wildcard) : p.Projected value (p.bindings value) := by
  have hresolved := environment_bindings hp value
  have hfirst : (p.bindings value).head? = some (p.wholeName, value) := by
    rw [bindings_eq_cons]
    rfl
  rw [bindings_eq_partBindings hp] at hresolved hfirst ⊢
  refine ⟨names_partBindings, hfirst, hresolved, ?_, kept_partBindings hp, ?_⟩
  · intro i j path k a q ha hq
    have hpart := (mem_parts.mp (List.mem_of_getElem? ha)).1
    refine ⟨index_lt_of_component ha hq, getElem?_component hpart hq, ?_⟩
    intro m b him hmj hb
    obtain ⟨l, hl, hdrawn⟩ := exists_drawn hb
    rw [hdrawn.name_eq]
    exact wholeName_ne_of_between ha hq hl him hmj
  · rw [hresolved]
    exact lookup_standing hp

end

/-- **Every part is taken from the right place.**  The parts of a pattern other than wildcards are
listed in the order of their paths, and the bindings of the pattern are those of the parts: resolved
by the last binding before it, each of them is the component of the value at the path of its part.
The name of a tuple is not bound again before its last component is taken, and that of the whole
pattern not at all; so it stands for the value where a definition has nothing after it.  A wildcard
alone binds its own spelling. -/
theorem bindings_from_their_places (p : Pattern String) (value : Core String) :
    (p ≠ wildcard →
      (∀ path q, (path, q) ∈ p.parts ↔ p.part? path = some q ∧ q ≠ wildcard) ∧
      p.parts.Pairwise (fun l m => l.1 < m.1) ∧ p.Projected value (p.bindings value)) ∧
    (∀ ps v s, (Expr.define (tuple ps) v s).core =
      Core.bindAll ((tuple ps).bindings v.core) (.var (tuple ps).wholeName)) ∧
    wildcard.bindings value = [(Vocabulary.wildcard, value)] := by
  refine ⟨?_, fun ps v s => rfl, rfl⟩
  intro hp
  exact ⟨fun path q => mem_parts, pairwise_parts p, projected_bindings hp⟩

/-- two equal tuples and a repeated name: the second `[a]` hides the first, and no other name is
hidden while it is needed -/
theorem bindings_from_their_places_of_equal_tuples :
    let p := tuple [tuple [name "a"], wildcard, tuple [name "a"]]
    let x : Core String := .var "x"
    p ≠ wildcard ∧
      p.bindings x = [("[[a]|_|[a]]", x), ("[a]", .project (.var "[[a]|_|[a]]") 0),
        ("a", .project (.var "[a]") 0), ("[a]", .project (.var "[[a]|_|[a]]") 2),
        ("a", .project (.var "[a]") 0)] ∧
      Core.environment (p.bindings x) = [("a", (x.project 2).project 0), ("[a]", x.project 2),
        ("a", (x.project 0).project 0), ("[a]", x.project 0), ("[[a]|_|[a]]", x)] := by
  intro p x
  have hp : p ≠ wildcard := by simp [p]
  exact ⟨hp, rfl, ((bindings_from_their_places p x).1 hp).2.2.resolved⟩

end Pattern

end TraceFront
