import Monomorph.Collect.Needs
import Monomorph.Proofs.Matching
import Monomorph.Proofs.Registration

/-!
# What resolution can produce

Matching a pattern binds its parameters to parts of the type that is matched and makes nothing up.
So whatever a property of types hands down to their parts, the arguments of the selected block have
it if the implementing type does. `Program.Resolves` lists all that a call can come to, and from
that follow the arguments (`Program.resolve_args`) and the target (`Program.resolve_target`).
-/

namespace Monomorph

/-- A property of slots that a type hands down to the slots below it. -/
def Hereditary (P : Arg Ty → Prop) : Prop := ∀ t : Ty, P (.ty t) → ∀ a ∈ t.node.slots, P a

namespace Binds

/-- Whether everything that is bound has a property. -/
def All (P : Arg Ty → Prop) (binds : Binds) : Prop := ∀ a, some a ∈ binds → P a

variable {P : Arg Ty → Prop}

/-- Nothing is bound yet, so all that is bound has the property. -/
theorem all_replicate_none (n : Nat) : All P (List.replicate n none) := by
  intro a ha
  exact nomatch List.eq_of_mem_replicate ha

/-- Binding a parameter to something with the property. -/
theorem All.bind? {binds binds' : Binds} {i : Nat} {a : Arg Ty} (hall : All P binds) (ha : P a)
    (h : binds.bind? i a = some binds') : All P binds' := by
  -- The parameter is out of range, gets bound now, or was bound already.
  unfold Binds.bind? at h
  split at h
  · exact nomatch h
  · obtain rfl := Option.some.inj h
    intro b hb
    rcases List.mem_or_eq_of_mem_set hb with hb | hb
    · exact hall b hb
    · exact Option.some.inj hb ▸ ha
  · split at h
    · exact Option.some.inj h ▸ hall
    · exact nomatch h

/-- What is read off was bound. -/
theorem All.toArgs? {binds : Binds} {args : Args} (hall : All P binds)
    (h : binds.toArgs? = some args) : ∀ a ∈ args, P a := by
  induction binds generalizing args with
  | nil =>
    obtain rfl := Option.some.inj h
    exact fun a ha => nomatch ha
  | cons b rest ih =>
    -- every parameter is bound, or there are no arguments
    cases b with
    | none => exact nomatch h
    | some b =>
      obtain ⟨as, has, rfl⟩ := Option.map_eq_some_iff.1 h
      intro a ha
      rcases List.mem_cons.1 ha with rfl | ha
      · exact hall a List.mem_cons_self
      · exact ih (fun c hc => hall c (List.mem_cons_of_mem _ hc)) has a ha

end Binds

section Match

variable {P : Arg Ty → Prop}

/-- Matching a constant binds nothing but it. -/
private theorem Const.match?_all {p c : Const} {binds binds' : Binds}
    (h : p.match? c binds = some binds') (hc : P (.const c)) (hall : binds.All P) :
    binds'.All P := by
  -- a value binds nothing
  unfold Const.match? at h
  split at h
  · exact hall.bind? hc h
  · split at h
    · exact Option.some.inj h ▸ hall
    · exact nomatch h

/-- Matching a slot binds nothing without the property, provided that this holds of types. -/
private theorem Arg.match?_all {a b : Arg Ty} {binds binds' : Binds}
    (ih : ∀ p, a = .ty p → ∀ t binds binds', p.match? t binds = some binds' → P (.ty t) →
      binds.All P → binds'.All P)
    (h : a.match? b binds = some binds') (hb : P b) (hall : binds.All P) : binds'.All P := by
  -- Types match types and constants match constants.
  cases a with
  | ty p =>
    cases b with
    | ty t => exact ih p rfl t binds binds' h hb hall
    | const d => exact nomatch h
  | const c =>
    cases b with
    | ty t => exact nomatch h
    | const d => exact Const.match?_all h hb hall

/-- Matching arguments binds only what they are made of. -/
private theorem Args.match?_all {as bs : Args} {binds binds' : Binds}
    (ih : ∀ a ∈ as, ∀ b binds binds', a.match? b binds = some binds' → P b →
      binds.All P → binds'.All P)
    (h : Args.match? as bs binds = some binds') (hbs : ∀ b ∈ bs, P b) (hall : binds.All P) :
    binds'.All P := by
  induction as generalizing bs binds with
  | nil =>
    cases bs with
    | nil => exact Option.some.inj h ▸ hall
    | cons b bs => exact nomatch h
  | cons a as iha =>
    cases bs with
    | nil => exact nomatch h
    | cons b bs =>
      obtain ⟨hb, hbs⟩ := List.forall_mem_cons.1 hbs
      -- the bindings between the first slot and the others are made from parts of the type too
      obtain ⟨between, hfirst, hrest⟩ := Option.bind_eq_some_iff.1 h
      have hbetween := ih a List.mem_cons_self b binds between hfirst hb hall
      exact iha (fun a' ha' => ih a' (List.mem_cons_of_mem a ha')) hrest hbs hbetween

/-- Matching a type binds only what it is made of. -/
private theorem Ty.match?_all (hP : Hereditary P) {p t : Ty} {binds binds' : Binds}
    (h : p.match? t binds = some binds') (ht : P (.ty t)) (hall : binds.All P) :
    binds'.All P := by
  induction p using Ty.ind generalizing t binds binds' with
  | layer n ih =>
    -- Matching a layer binds the whole type, goes on in the slots, or binds nothing.
    have hstep := match?_step n t binds
    rw [h] at hstep
    have hslots := hP t ht
    generalize hresult : some binds' = result at hstep
    cases hstep with
    | param i => exact hall.bind? ht hresult.symm
    | same hn hclosed => exact Option.some.inj hresult ▸ hall
    | split =>
      rw [node_of] at hslots
      refine Args.match?_all (fun a ha b binds binds' h hb hall => ?_) hresult.symm hslots hall
      exact Arg.match?_all (fun p hp t binds binds' => ih p (hp ▸ ha)) h hb hall
    | apart => exact nomatch hresult

/-- Matching hands down a property of the type that is matched to all that is bound. -/
theorem Ty.matchArgs_all (hP : Hereditary P) {count : Nat} {pattern t : Ty} {args : Args}
    (h : pattern.matchArgs count t = some args) (ht : P (.ty t)) : ∀ a ∈ args, P a := by
  obtain ⟨binds, hbinds, h⟩ := Option.bind_eq_some_iff.1 h
  exact (Ty.match?_all hP hbinds ht (Binds.all_replicate_none count)).toArgs? h

end Match

namespace Program

variable {p : Program} {P : Arg Ty → Prop}

/-- The arguments of the block that is selected are parts of the implementing type. -/
theorem selectImpl?_args (hP : Hereditary P) {trait impl : ItemId} {self : Ty} {args : Args}
    (h : p.selectImpl? trait self = some (impl, args)) (hself : P (.ty self)) :
    ∀ a ∈ args, P a := by
  obtain ⟨i, -, hi⟩ := List.exists_of_findSome?_eq_some h
  obtain ⟨as, has, he⟩ := Option.map_eq_some_iff.1 hi
  obtain ⟨pattern, -, has⟩ := Option.bind_eq_some_iff.1 has
  obtain ⟨-, rfl⟩ := Prod.mk.inj he
  exact Ty.matchArgs_all hP has hself

/-- What resolving a call can come to. -/
inductive Resolves (p : Program) (i : ItemId) : Args → Resolution → Prop
  | plain {args : Args} : (∀ trait, (p.item i).kind ≠ .traitMethod trait) →
    Resolves p i args (.item i args)
  /-- A method of a trait has to be applied to a type. -/
  | unapplied {trait : ItemId} {args : Args} : (p.item i).kind = .traitMethod trait →
    (∀ t own, args = .ty t :: own → ∃ k, t = .param k) → Resolves p i args .unresolved
  | object {trait : ItemId} {own : Args} : (p.item i).kind = .traitMethod trait →
    Resolves p i (.ty (.dyn trait) :: own) .virtual
  | provided {trait impl target : ItemId} {t : Ty} {args own : Args} :
    (p.item i).kind = .traitMethod trait → p.selectImpl? trait t = some (impl, args) →
    p.implMethod? impl i = some target → Resolves p i (.ty t :: own) (.item target (args ++ own))
  | inherited {trait impl : ItemId} {t : Ty} {args own : Args} :
    (p.item i).kind = .traitMethod trait → p.selectImpl? trait t = some (impl, args) →
    p.implMethod? impl i = none → (p.item i).body.isSome = true →
    Resolves p i (.ty t :: own) (.item i (.ty t :: own))
  | missing {trait impl : ItemId} {t : Ty} {args own : Args} :
    (p.item i).kind = .traitMethod trait → p.selectImpl? trait t = some (impl, args) →
    p.implMethod? impl i = none → (p.item i).body.isSome = false →
    Resolves p i (.ty t :: own) .unresolved
  | unimplemented {trait : ItemId} {t : Ty} {own : Args} :
    (p.item i).kind = .traitMethod trait → p.selectImpl? trait t = none →
    Resolves p i (.ty t :: own) .unresolved

/-- What a call resolves to is what it should. -/
theorem resolves_resolve (p : Program) (i : ItemId) (args : Args) :
    p.Resolves i args (p.resolve i args) := by
  unfold resolve
  split
  · next trait hkind =>
    split
    · next k own =>
      refine .unapplied hkind fun t own' h => ⟨k, ?_⟩
      exact (Arg.ty.inj (List.cons.inj h).1).symm
    · next t own _ =>
      split
      · next hdyn => exact hdyn ▸ .object hkind
      · unfold resolveFor
        split
        · next hnone => exact .unimplemented hkind hnone
        · next impl implArgs hselect =>
          -- the block's own method, or else the default of the trait
          split
          · next target htarget => exact .provided hkind hselect htarget
          · next hlacks =>
            split
            · next hbody => exact .inherited hkind hselect hlacks hbody
            · next hbody => exact .missing hkind hselect hlacks (Bool.eq_false_iff.2 hbody)
    · next hother =>
      refine .unapplied hkind fun t own h => ?_
      exact absurd h (hother t own)
  · next hkind => exact .plain hkind

/-- What a call comes to has its arguments from those of the call. -/
theorem resolve_args (hP : Hereditary P) {i target : ItemId} {args targetArgs : Args}
    (h : p.resolve i args = .item target targetArgs) (hargs : ∀ a ∈ args, P a) :
    ∀ a ∈ targetArgs, P a := by
  have hresolves := p.resolves_resolve i args
  -- the arguments come from the call, or the pattern has taken them from the type in front
  rw [h] at hresolves
  cases hresolves with
  | plain => exact hargs
  | provided _ hselect =>
    obtain ⟨hself, hown⟩ := List.forall_mem_cons.1 hargs
    exact List.forall_mem_append.2 ⟨selectImpl?_args hP hselect hself, hown⟩
  | inherited => exact hargs

/-- A call comes to the item it names or to another item of the program. -/
theorem resolve_target {i target : ItemId} {args targetArgs : Args}
    (h : p.resolve i args = .item target targetArgs) : target = i ∨ target < p.items.size := by
  have hresolves := p.resolves_resolve i args
  rw [h] at hresolves
  cases hresolves with
  | plain => exact .inl rfl
  | provided _ _ htarget =>
    rw [implMethod?_eq] at htarget
    exact .inr (p.mem_itemsWhere.1 (List.mem_of_getLast? htarget)).1
  | inherited => exact .inl rfl

end Program

/-! ## Parts of types -/

/-- The concrete type of a coercion is a part of the source. -/
theorem unsizeParts_source {P : Arg Ty → Prop} (hP : Hereditary P) {s t concrete : Ty}
    {trait : ItemId} (h : unsizeParts s t = some (concrete, trait)) (hs : P (.ty s)) :
    P (.ty concrete) := by
  induction s using Ty.ind generalizing t with
  | layer n ih =>
    rw [unsizeParts.eq_def] at h
    split at h
    · exact nomatch h
    · obtain ⟨rfl, -⟩ := Prod.mk.inj (Option.some.inj h)
      exact hs
    · next v u w t he =>
      -- pointers on both sides are looked through
      obtain rfl : n = .wrap v u := by rw [← Ty.node_of n, he]; rfl
      split at h
      · exact ih u List.mem_cons_self h (hP _ hs _ List.mem_cons_self)
      · exact nomatch h
    · exact nomatch h

namespace Program

variable {p : Program} {P : Arg Ty → Prop}

/-- What the glue for a type could be made of are parts of the type and fields of items. -/
theorem glueCandidates_all (hP : Hereditary P)
    (hfield : ∀ (i : ItemId) (fields : List Ty) (args : Args) (f u : Ty),
      (p.item i).kind = .adt fields → f ∈ fields → (∀ a ∈ args, P a) → f.subst args = .ok u →
      P (.ty u))
    {t : Ty} {parts : DropParts} (h : p.glueCandidates t = .ok parts) (ht : P (.ty t)) :
    (∀ c ∈ parts.children, P (.ty c)) ∧ ∀ m args, parts.method = some (m, args) →
      (∃ i, p.dropMethod? i = some m) ∧ ∀ a ∈ args, P a := by
  have hslots := hP t ht
  -- Only a type with fields can have a drop method, and all else has nothing but children.
  have none_method : ∀ cs : List Ty, (∀ c ∈ cs, P (.ty c)) →
      (∀ c ∈ ({ children := cs } : DropParts).children, P (.ty c)) ∧
        ∀ m args, ({ children := cs } : DropParts).method = some (m, args) →
          (∃ i, p.dropMethod? i = some m) ∧ ∀ a ∈ args, P a :=
    fun cs hcs => ⟨hcs, fun m args hm => nomatch hm⟩
  unfold glueCandidates at h
  split at h
  · next ts hn =>
    obtain rfl := Except.ok.inj h
    rw [hn] at hslots
    exact none_method ts fun c hc => hslots _ (List.mem_map_of_mem hc)
  · next u n hn =>
    obtain rfl := Except.ok.inj h
    rw [hn] at hslots
    exact none_method [u] (List.forall_mem_singleton.2 (hslots _ List.mem_cons_self))
  · next u hn =>
    obtain rfl := Except.ok.inj h
    rw [hn] at hslots
    exact none_method [u] (List.forall_mem_singleton.2 (hslots _ List.mem_cons_self))
  · obtain rfl := Except.ok.inj h
    exact none_method [] fun c hc => nomatch hc
  · next u hne hn =>
    obtain rfl := Except.ok.inj h
    rw [hn] at hslots
    exact none_method [u] (List.forall_mem_singleton.2 (hslots _ List.mem_cons_self))
  · next i args hn =>
    rw [hn] at hslots
    have with_method : ∀ cs : List Ty, (∀ c ∈ cs, P (.ty c)) →
        parts = { method := (p.dropMethod? i).map (·, args), children := cs } →
        (∀ c ∈ parts.children, P (.ty c)) ∧ ∀ m margs, parts.method = some (m, margs) →
          (∃ i, p.dropMethod? i = some m) ∧ ∀ a ∈ margs, P a := by
      intro cs hcs he
      rw [he]
      refine ⟨hcs, fun m margs hm => ?_⟩
      obtain ⟨m', hm', he⟩ := Option.map_eq_some_iff.1 hm
      obtain ⟨rfl, rfl⟩ := Prod.mk.inj he
      exact ⟨⟨i, hm'⟩, hslots⟩
    split at h
    · next fields hkind =>
      obtain ⟨children, hchildren, h⟩ := bind_eq_ok_iff.1 h
      refine with_method children (fun c hc => ?_) (Except.ok.inj h).symm
      obtain ⟨f, hf, hsub⟩ := forall₂_exists_left (mapM_eq_ok_iff.1 hchildren) hc
      exact hfield i fields args f c hkind hf hslots hsub
    · exact with_method [] (fun c hc => nomatch hc) (Except.ok.inj h).symm
  · obtain rfl := Except.ok.inj h
    exact none_method [] fun c hc => nomatch hc

end Program

end Monomorph
