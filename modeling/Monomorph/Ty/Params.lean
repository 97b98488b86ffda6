import Monomorph.Ty.Basic

/-!
# Parameters in a type

A type of a generic item mentions the item's parameters by their position. `Ty.mentions` lists
the mentions of a type in reading order, each with the sort of parameter it must be. It walks the
whole type; what only asks whether anything is mentioned, or at which positions, goes by the
measure, and `Ty.hasParams_iff_mentions_ne_nil` and `Ty.mem_indices` say that it may.
-/

namespace Monomorph

/-- The two sorts of generic parameter. -/
inductive ParamKind where
  | type
  | const
  deriving DecidableEq, Repr, Inhabited

/-- A mention of a parameter: the sort it must have and its position. -/
abbrev Mention := ParamKind × Nat

/-- The mention that a constant is, if it is one. -/
def Const.mentions : Const → List Mention
  | .value _ => []
  | .param i => [(.const, i)]

/-- The mentions in a slot, where those in types are known. -/
def Arg.mentions : Arg (List Mention) → List Mention
  | .ty ms => ms
  | .const c => c.mentions

/-- The mention that a layer is by itself. -/
def TyNode.ownMentions {α : Type} : TyNode α → List Mention
  | .param i => [(.type, i)]
  | _ => []

/-- The mentions in a layer, where those in its children are known. -/
def TyNode.mentions (n : TyNode (List Mention)) : List Mention :=
  n.ownMentions ++ n.slots.flatMap Arg.mentions

namespace Flags

/-- A union has parameters where one of the two has. -/
theorem hasParams_union (f g : Flags) : (f.union g).hasParams = (f.hasParams || g.hasParams) := by
  cases f; cases g; grind [union, hasParams]

/-- A union of many has parameters where one of them has. -/
theorem hasParams_foldl_union (fs : List Flags) (f : Flags) :
    (fs.foldl union f).hasParams = (f.hasParams || fs.any hasParams) := by
  induction fs generalizing f with
  | nil => simp
  | cons g fs ih => simp [ih, hasParams_union, Bool.or_assoc]

end Flags

namespace Ty

/-- Every mention of a parameter, in reading order. -/
def mentions : Ty → List Mention := fold TyNode.mentions

/-- The equation of `mentions`: what a layer mentions, given what its children do. -/
theorem mentions_of (n : TyNode Ty) : (of n).mentions = (n.map mentions).mentions :=
  fold_of _ n

/-- A parameter mentions itself. -/
@[simp] theorem mentions_param (i : Nat) : (param i).mentions = [(.type, i)] := rfl

/-- A type mentions what its layer is and what its slots mention. -/
theorem mem_mentions_of {m : Mention} {n : TyNode Ty} : m ∈ (of n).mentions ↔
    m ∈ n.ownMentions ∨ ∃ a ∈ n.slots, m ∈ (a.map mentions).mentions := by
  have h : (n.map mentions).ownMentions = n.ownMentions := by cases n <;> rfl
  rw [mentions_of, TyNode.mentions, TyNode.slots_map, List.flatMap_map, h, List.mem_append,
    List.mem_flatMap]

/-- The positions mentioned in a type are those of its layer and of its slots. -/
theorem mem_indices_of {i : Nat} {n : TyNode Ty} : i ∈ (of n).indices ↔
    i ∈ n.ownParams ∨ ∃ a ∈ n.slots, i ∈ (a.map measure).params := by
  have h : (n.map measure).ownParams = n.ownParams := by cases n <;> rfl
  rw [indices, measure_of, Measure.ofNode, TyNode.slots_map, h]
  simp only [List.map_map]
  exact Positions.mem_unionAll_map _ _ _

/-- The positions of a layer's own parameters are those it mentions itself. -/
private theorem mem_ownParams {i : Nat} {n : TyNode Ty} :
    i ∈ n.ownParams ↔ ∃ k, (k, i) ∈ n.ownMentions := by
  cases n <;> simp [TyNode.ownParams, TyNode.ownMentions]

/-- The positions of a constant's parameters are those it mentions. -/
private theorem mem_params_const {i : Nat} {c : Const} :
    i ∈ (Arg.const c).params ↔ ∃ k, (k, i) ∈ c.mentions := by
  cases c <;> simp [Arg.params, Const.mentions]

/-- The measure has the positions of all mentions. -/
theorem mem_indices {i : Nat} (t : Ty) : i ∈ t.indices ↔ ∃ k, (k, i) ∈ t.mentions := by
  -- Layer by layer: the positions of the slots are known by induction, those of the layer itself
  -- are its own mentions.
  induction t using ind with
  | layer n ih =>
    have slot : ∀ a ∈ n.slots,
        (i ∈ (a.map measure).params ↔ ∃ k, (k, i) ∈ (a.map mentions).mentions) := fun a ha => by
      cases a with
      | ty u => exact ih u ha
      | const c => exact mem_params_const
    rw [mem_indices_of, mem_ownParams]
    simp only [mem_mentions_of, exists_or]
    refine or_congr_right ⟨fun ⟨a, ha, hi⟩ => ?_, fun ⟨k, a, ha, hk⟩ => ?_⟩
    · obtain ⟨k, hk⟩ := (slot a ha).1 hi
      exact ⟨k, a, ha, hk⟩
    · exact ⟨a, ha, (slot a ha).2 ⟨k, hk⟩⟩

/-- The positions mentioned in a type are listed in increasing order, each once. -/
theorem increasing_indices (t : Ty) : Positions.Increasing t.indices := by
  -- The own parameters of a layer are at most one, and the unions over the slots increase by
  -- induction.
  induction t using ind with
  | layer n ih =>
    rw [indices, measure_of, Measure.ofNode]
    refine Positions.increasing_unionAll _ _ (by cases n <;> simp [TyNode.ownParams, TyNode.map]) ?_
    simp only [TyNode.slots_map, List.map_map, List.mem_map]
    rintro _ ⟨a, ha, rfl⟩
    cases a with
    | ty u => exact ih u ha
    | const c => cases c <;> simp [Arg.params]

/-- A parameter occurs in a type if the layer is one or one occurs in a slot. -/
theorem hasParams_of (n : TyNode Ty) : (of n).hasParams =
    (n.ownFlags.hasParams || n.slots.any fun a => (a.map measure).flags.hasParams) := by
  rw [hasParams, flags, measure_of, Measure.ofNode, Flags.hasParams_foldl_union,
    TyNode.slots_map, List.any_map, List.any_map]
  congr 1
  cases n <;> try rfl
  case tuple ts => cases ts <;> rfl
  -- what is left is settled by what the layer wraps
  case wrap w t => cases w <;> rfl
  case nominal k i as => cases k <;> rfl

/-- A layer's own flags have parameters where it mentions one itself. -/
private theorem hasParams_ownFlags {n : TyNode Ty} :
    n.ownFlags.hasParams = true ↔ ∃ m, m ∈ n.ownMentions := by
  cases n with
  | tuple ts => cases ts <;> simp [TyNode.ownFlags, TyNode.ownMentions, Flags.hasParams]
  | wrap w t => cases w <;> simp [TyNode.ownFlags, TyNode.ownMentions, Flags.hasParams]
  | nominal k i as => cases k <;> simp [TyNode.ownFlags, TyNode.ownMentions, Flags.hasParams]
  | _ => simp [TyNode.ownFlags, TyNode.ownMentions, Flags.hasParams]

/-- A constant's flags have parameters where it mentions one. -/
private theorem hasParams_const {c : Const} :
    (Arg.const c).flags.hasParams = true ↔ ∃ m, m ∈ c.mentions := by
  cases c <;> simp [Arg.flags, Const.mentions, Flags.hasParams]

/-- A parameter occurs in a type exactly if something is mentioned in it. -/
theorem hasParams_iff_mentions_ne_nil (t : Ty) : t.hasParams = true ↔ t.mentions ≠ [] := by
  -- The statement as an existence is what the slots can be put together by.
  suffices h : t.hasParams = true ↔ ∃ m, m ∈ t.mentions from
    h.trans ⟨fun ⟨_, hm⟩ => List.ne_nil_of_mem hm, List.exists_mem_of_ne_nil _⟩
  induction t using ind with
  | layer n ih =>
    have slot : ∀ a ∈ n.slots, ((a.map measure).flags.hasParams = true ↔
        ∃ m, m ∈ (a.map mentions).mentions) := fun a ha => by
      cases a with
      | ty u => exact ih u ha
      | const c => exact hasParams_const
    rw [hasParams_of, Bool.or_eq_true, List.any_eq_true, hasParams_ownFlags]
    simp only [mem_mentions_of, exists_or]
    refine or_congr_right ⟨fun ⟨a, ha, hi⟩ => ?_, fun ⟨m, a, ha, hm⟩ => ?_⟩
    · obtain ⟨m, hm⟩ := (slot a ha).1 hi
      exact ⟨m, a, ha, hm⟩
    · exact ⟨a, ha, (slot a ha).2 ⟨m, hm⟩⟩

end Ty

namespace Args

/-- Every mention of a parameter in an argument list, in reading order. -/
def mentions (args : Args) : List Mention :=
  args.flatMap fun a => (a.map Ty.mentions).mentions

/-- The measures have the positions of all mentions. -/
theorem mem_indices {i : Nat} (args : Args) : i ∈ args.indices ↔ ∃ k, (k, i) ∈ mentions args := by
  -- The two kinds of slot are the two lemmas about types and about constants.
  have slot : ∀ a : Arg Ty,
      (i ∈ (a.map Ty.measure).params ↔ ∃ k, (k, i) ∈ (a.map Ty.mentions).mentions) := fun a => by
    cases a with
    | ty u => exact Ty.mem_indices u
    | const c => exact Ty.mem_params_const
  rw [indices, measures, List.map_map, Positions.mem_unionAll_map]
  simp only [List.not_mem_nil, false_or, mentions, List.mem_flatMap, Function.comp_apply]
  refine ⟨fun ⟨a, ha, hi⟩ => ?_, fun ⟨k, a, ha, hk⟩ => ?_⟩
  · obtain ⟨k, hk⟩ := (slot a).1 hi
    exact ⟨k, a, ha, hk⟩
  · exact ⟨a, ha, (slot a).2 ⟨k, hk⟩⟩

end Args

end Monomorph
