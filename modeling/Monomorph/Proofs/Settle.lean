import Monomorph.Proofs.Drop
import Monomorph.Proofs.Scan

/-!
# Which neighbors a scan returns

A scan finds what an instance needs and then leaves out the glue for types that do not need drop.
`Program.Settles` says what is left, by the true answers. `Program.ScansFrom` is what the walk sees,
whose memory depends on the instances it has looked at before; where no type lies inside itself by
value that is the same as `Program.Scans`, the scan that starts without any memory.
-/

namespace Monomorph

namespace Program

variable {p : Program} {unused : UnusedSets}

/-! ## Looking up glue -/

/-- What is left of some needs when it is known which types need drop. -/
inductive Settles (p : Program) : List Need → List Neighbor → Prop
  | nil : Settles p [] []
  | use {n : Neighbor} {rest : List Need} {ns : List Neighbor} :
    Settles p rest ns → Settles p (.use n :: rest) (n :: ns)
  /-- What lies behind a trait object is dropped through its vtable. -/
  | object {i : ItemId} {kind : UseKind} {span : Span} {rest : List Need} {ns : List Neighbor} :
    Settles p rest ns → Settles p (.glue (.dyn i) kind span :: rest) ns
  | harmless {t : Ty} {kind : UseKind} {span : Span} {rest : List Need} {ns : List Neighbor} :
    p.Drops t false → Settles p rest ns → Settles p (.glue t kind span :: rest) ns
  | glue {t : Ty} {kind : UseKind} {span : Span} {rest : List Need} {ns : List Neighbor} :
    (∀ i, t ≠ .dyn i) → p.Drops t true → Settles p rest ns →
    Settles p (.glue t kind span :: rest) (⟨.glue t, kind, span⟩ :: ns)

/-- A trait object always needs drop. -/
theorem not_drops_dyn_false {i : ItemId} : ¬ p.Drops (.dyn i) false :=
  not_drops_false_of_always rfl

/-- What is left of some needs is determined by them. -/
theorem Settles.inj {needs : List Need} {ns ns' : List Neighbor} (h : p.Settles needs ns)
    (h' : p.Settles needs ns') : ns = ns' := by
  induction h generalizing ns' with
  | nil =>
    cases h'
    rfl
  | use _ ih =>
    cases h' with
    | use h' => rw [ih h']
  | object _ ih =>
    cases h' with
    | object h' => exact ih h'
    | harmless hd h' => exact ih h'
    | glue hne => exact absurd rfl (hne _)
  | harmless hd _ ih =>
    cases h' with
    | object h' => exact ih h'
    | harmless _ h' => exact ih h'
    | glue _ hd' => exact nomatch hd.inj hd'
  | glue hne hd _ ih =>
    cases h' with
    | object => exact absurd rfl (hne _)
    | harmless hd' => exact nomatch hd.inj hd'
    | glue _ _ h' => rw [ih h']

/-- Something is left of any needs when every type has an answer. -/
theorem exists_settles (hdrops : ∀ t, ∃ b, p.Drops t b) (needs : List Need) :
    ∃ ns, p.Settles needs ns := by
  induction needs with
  | nil => exact ⟨[], .nil⟩
  | cons need rest ih =>
    obtain ⟨ns, hns⟩ := ih
    cases need with
    | use n => exact ⟨_, .use hns⟩
    | glue t kind span =>
      -- glue for a trait object is left out, whatever the answer
      by_cases hdyn : ∃ i, t = .dyn i
      · obtain ⟨i, rfl⟩ := hdyn
        exact ⟨_, .object hns⟩
      · obtain ⟨b, hb⟩ := hdrops t
        cases b with
        | false => exact ⟨_, .harmless hb hns⟩
        | true => exact ⟨_, .glue (fun i h => hdyn ⟨i, h⟩) hb hns⟩

/-- A use is kept, and the memory stays as it is. -/
theorem settle_use_eq_some_iff {fuel : Nat} {n : Neighbor} {rest : List Need} {m m' : DropMemo}
    {ns : List Neighbor} : p.settle fuel (.use n :: rest) m = some (ns, m') ↔
      ∃ ms, p.settle fuel rest m = some (ms, m') ∧ ns = n :: ms := by
  simp only [settle, Option.bind_eq_bind, Option.bind_eq_some_iff, pure, Option.some.injEq,
    Prod.mk.injEq, Prod.exists]
  constructor
  · intro h
    obtain ⟨ms, m₁, h, hns, hm⟩ := h
    exact ⟨ms, hm ▸ h, hns.symm⟩
  · intro h
    obtain ⟨ms, h, hns⟩ := h
    exact ⟨ms, m', h, hns.symm, rfl⟩

/-- Glue is looked up first, and the rest is settled with what that has left in the memory. -/
theorem settle_glue_eq_some_iff {fuel : Nat} {t : Ty} {kind : UseKind} {span : Span}
    {rest : List Need} {m m' : DropMemo} {ns : List Neighbor} :
    p.settle fuel (.glue t kind span :: rest) m = some (ns, m') ↔
      ∃ inst? m₁ ms, p.glue? fuel t m = some (inst?, m₁) ∧
        p.settle fuel rest m₁ = some (ms, m') ∧
        ns = (inst?.toList.map fun inst => ⟨inst, kind, span⟩) ++ ms := by
  simp only [settle, Option.bind_eq_bind, Option.bind_eq_some_iff, pure, Option.some.injEq,
    Prod.mk.injEq, Prod.exists]
  constructor
  · intro h
    obtain ⟨inst?, m₁, hg, ms, m₂, h, hns, hm⟩ := h
    exact ⟨inst?, m₁, ms, hg, hm ▸ h, hns.symm⟩
  · intro h
    obtain ⟨inst?, m₁, ms, hg, h, hns⟩ := h
    exact ⟨inst?, m₁, hg, ms, m', h, hns.symm, rfl⟩

/-- What the glue for a type can come to: none for a trait object, else by classification. -/
theorem glue?_eq_some_iff {fuel : Nat} {t : Ty} {m m' : DropMemo} {inst? : Option Instance}
    (hne : ∀ i, t ≠ .dyn i) : p.glue? fuel t m = some (inst?, m') ↔
      ∃ b, p.needsDrop fuel t m = some (b, m') ∧
        inst? = if b then some (.glue t) else none := by
  -- only a trait object is looked up without a classification
  have hglue : p.glue? fuel t m = (p.needsDrop fuel t m).map fun r =>
      (if r.1 then some (Instance.glue t) else none, r.2) := by
    cases t with
    | dyn i => exact absurd rfl (hne i)
    | _ => rfl
  simp only [hglue, Option.map_eq_some_iff, Prod.exists, Prod.mk.injEq]
  constructor
  · intro h
    obtain ⟨b, m₁, h, hinst, hm⟩ := h
    exact ⟨b, hm ▸ h, hinst.symm⟩
  · intro h
    obtain ⟨b, h, hinst⟩ := h
    exact ⟨b, m', h, hinst.symm, rfl⟩

/-- Glue is either asked for a trait object or chosen by classification. -/
theorem glue?_cases {fuel : Nat} {t : Ty} {m m' : DropMemo} {inst? : Option Instance}
    (h : p.glue? fuel t m = some (inst?, m')) :
    (∃ i, t = .dyn i ∧ inst? = none ∧ m' = m) ∨
      (∀ i, t ≠ .dyn i) ∧ ∃ b, p.needsDrop fuel t m = some (b, m') ∧
        inst? = if b then some (.glue t) else none := by
  by_cases hdyn : ∃ i, t = .dyn i
  · obtain ⟨i, rfl⟩ := hdyn
    obtain ⟨rfl, rfl⟩ := Prod.mk.inj (Option.some.inj h)
    exact .inl ⟨i, rfl, rfl, rfl⟩
  · have hne : ∀ i, t ≠ .dyn i := fun i h => hdyn ⟨i, h⟩
    exact .inr ⟨hne, (glue?_eq_some_iff hne).1 h⟩

/-- What is left of some needs, where `A` says what an answer tells of a type. -/
inductive Sifts (A : Ty → Bool → Prop) : List Need → List Neighbor → Prop
  | nil : Sifts A [] []
  | use {n : Neighbor} {rest : List Need} {ns : List Neighbor} :
    Sifts A rest ns → Sifts A (.use n :: rest) (n :: ns)
  | object {i : ItemId} {kind : UseKind} {span : Span} {rest : List Need} {ns : List Neighbor} :
    Sifts A rest ns → Sifts A (.glue (.dyn i) kind span :: rest) ns
  | harmless {t : Ty} {kind : UseKind} {span : Span} {rest : List Need} {ns : List Neighbor} :
    A t false → Sifts A rest ns → Sifts A (.glue t kind span :: rest) ns
  | glue {t : Ty} {kind : UseKind} {span : Span} {rest : List Need} {ns : List Neighbor} :
    (∀ i, t ≠ .dyn i) → A t true → Sifts A rest ns →
    Sifts A (.glue t kind span :: rest) (⟨.glue t, kind, span⟩ :: ns)

/-- If every answer keeps an invariant of the memory and tells something then, that is how needs
    are sifted. -/
theorem settle_sifts {I : DropMemo → Prop} {A : Ty → Bool → Prop} {fuel : Nat}
    (hask : ∀ t m b m', I m → p.needsDrop fuel t m = some (b, m') → A t b ∧ I m')
    {needs : List Need} {m m' : DropMemo} {ns : List Neighbor} (hm : I m)
    (h : p.settle fuel needs m = some (ns, m')) : Sifts A needs ns ∧ I m' := by
  induction needs generalizing m ns with
  | nil =>
    obtain ⟨rfl, rfl⟩ := Prod.mk.inj (Option.some.inj h)
    exact ⟨.nil, hm⟩
  | cons need rest ih =>
    cases need with
    | use n =>
      obtain ⟨ms, hms, rfl⟩ := settle_use_eq_some_iff.1 h
      obtain ⟨hsifts, hm'⟩ := ih hm hms
      exact ⟨.use hsifts, hm'⟩
    | glue t kind span =>
      obtain ⟨inst?, m₁, ms, hglue, hms, rfl⟩ := settle_glue_eq_some_iff.1 h
      obtain ⟨i, rfl, rfl, rfl⟩ | ⟨hne, b, hb, rfl⟩ := glue?_cases hglue
      · obtain ⟨hsifts, hm'⟩ := ih hm hms
        exact ⟨.object hsifts, hm'⟩
      · -- the rest is settled with what this type has added to the memory
        obtain ⟨ht, hm₁⟩ := hask t m b m₁ hm hb
        obtain ⟨hsifts, hm'⟩ := ih hm₁ hms
        cases b with
        | false => exact ⟨.harmless ht hsifts, hm'⟩
        | true => exact ⟨.glue hne ht hsifts, hm'⟩

section Sifts

variable {A : Ty → Bool → Prop} {needs : List Need} {ns : List Neighbor}

/-- Every neighbor was found as one, or is the glue for a type whose glue was asked for and that is
    said to need drop. -/
theorem Sifts.found (h : Sifts A needs ns) {n : Neighbor} (hn : n ∈ ns) : .use n ∈ needs ∨
    ∃ t, .glue t n.kind n.span ∈ needs ∧ n.inst = .glue t ∧ (∀ i, t ≠ .dyn i) ∧ A t true := by
  -- whatever is found for the rest counts for the whole list
  have later : ∀ {need : Need} {rest : List Need},
      (.use n ∈ rest ∨ ∃ t, .glue t n.kind n.span ∈ rest ∧ n.inst = .glue t ∧
        (∀ i, t ≠ .dyn i) ∧ A t true) →
      .use n ∈ need :: rest ∨ ∃ t, .glue t n.kind n.span ∈ need :: rest ∧ n.inst = .glue t ∧
        (∀ i, t ≠ .dyn i) ∧ A t true :=
    Or.imp (List.mem_cons_of_mem _) (Exists.imp fun _ => And.imp_left (List.mem_cons_of_mem _))
  induction h with
  | nil => exact absurd hn List.not_mem_nil
  | use _ ih =>
    obtain rfl | hn := List.mem_cons.1 hn
    · exact .inl List.mem_cons_self
    · exact later (ih hn)
  | object _ ih => exact later (ih hn)
  | harmless _ _ ih => exact later (ih hn)
  | glue hne ht _ ih =>
    obtain rfl | hn := List.mem_cons.1 hn
    · exact .inr ⟨_, List.mem_cons_self, rfl, hne, ht⟩
    · exact later (ih hn)

/-- What was found as a neighbor is one in any case. -/
theorem Sifts.of_use (h : Sifts A needs ns) {n : Neighbor} (hn : .use n ∈ needs) : n ∈ ns := by
  induction h with
  | nil => exact absurd hn List.not_mem_nil
  | use _ ih =>
    obtain hn | hn := List.mem_cons.1 hn
    · obtain rfl := Need.use.inj hn
      exact List.mem_cons_self
    · exact List.mem_cons_of_mem _ (ih hn)
  | object _ ih => exact ih (List.mem_of_ne_of_mem (by simp) hn)
  | harmless _ _ ih => exact ih (List.mem_of_ne_of_mem (by simp) hn)
  | glue _ _ _ ih => exact List.mem_cons_of_mem _ (ih (List.mem_of_ne_of_mem (by simp) hn))

/-- Glue that is asked for is left out only for trait objects and for what is said not to need
    drop. -/
theorem Sifts.of_glue (h : Sifts A needs ns) {t : Ty} {kind : UseKind} {span : Span}
    (hneed : .glue t kind span ∈ needs) :
    (∃ i, t = .dyn i) ∨ A t false ∨ A t true ∧ ⟨.glue t, kind, span⟩ ∈ ns := by
  induction h with
  | nil => exact absurd hneed List.not_mem_nil
  | use _ ih =>
    have hrest := ih (List.mem_of_ne_of_mem (by simp) hneed)
    exact hrest.imp_right (.imp_right (.imp_right (List.mem_cons_of_mem _)))
  | object _ ih =>
    obtain hneed | hneed := List.mem_cons.1 hneed
    · exact .inl ⟨_, (Need.glue.inj hneed).1⟩
    · exact ih hneed
  | harmless ht _ ih =>
    obtain hneed | hneed := List.mem_cons.1 hneed
    · obtain ⟨rfl, -, -⟩ := Need.glue.inj hneed
      exact .inr (.inl ht)
    · exact ih hneed
  | glue _ ht _ ih =>
    obtain hneed | hneed := List.mem_cons.1 hneed
    · obtain ⟨rfl, rfl, rfl⟩ := Need.glue.inj hneed
      exact .inr (.inr ⟨ht, List.mem_cons_self⟩)
    · exact (ih hneed).imp_right (.imp_right (.imp_right (List.mem_cons_of_mem _)))

end Sifts

/-- Sifting by the true answers is what `Program.Settles` says. -/
theorem settles_iff_sifts {needs : List Need} {ns : List Neighbor} :
    p.Settles needs ns ↔ Sifts p.Drops needs ns := by
  constructor
  · intro h
    induction h with
    | nil => exact .nil
    | use _ ih => exact .use ih
    | object _ ih => exact .object ih
    | harmless ht _ ih => exact .harmless ht ih
    | glue hne ht _ ih => exact .glue hne ht ih
  · intro h
    induction h with
    | nil => exact .nil
    | use _ ih => exact .use ih
    | object _ ih => exact .object ih
    | harmless ht _ ih => exact .harmless ht ih
    | glue hne ht _ ih => exact .glue hne ht ih

/-- Glue that is asked for is left out only for what does not need any. -/
theorem Settles.glue_cases {needs : List Need} {ns : List Neighbor} (h : p.Settles needs ns)
    {t : Ty} {kind : UseKind} {span : Span} (hneed : .glue t kind span ∈ needs) :
    (∃ i, t = .dyn i) ∨ p.Drops t false ∨ p.Drops t true ∧ ⟨.glue t, kind, span⟩ ∈ ns :=
  (settles_iff_sifts.1 h).of_glue hneed

/-- With right entries in the memory, settling gives what is left by the true answers. -/
theorem settle_sound (hacyclic : p.ByValueAcyclic) {fuel : Nat} {needs : List Need}
    {m m' : DropMemo} {ns : List Neighbor} (hm : m.Sound p)
    (h : p.settle fuel needs m = some (ns, m')) : p.Settles needs ns ∧ m'.Sound p :=
  (settle_sifts (fun t _ _ _ => classify_sound hacyclic (around_empty t)) hm h).imp_left
    settles_iff_sifts.2

/-- Where it does not matter which types need drop, nothing has to be known of the answers. -/
theorem sifts_of_settle {fuel : Nat} {needs : List Need} {m m' : DropMemo} {ns : List Neighbor}
    (h : p.settle fuel needs m = some (ns, m')) : Sifts (fun _ _ => True) needs ns :=
  (settle_sifts (I := fun _ => True) (fun _ _ _ _ _ _ => ⟨trivial, trivial⟩) trivial h).1

/-- What is left by the true answers is found with enough fuel. -/
theorem settle_complete (hacyclic : p.ByValueAcyclic) {needs : List Need} {ns : List Neighbor}
    (h : p.Settles needs ns) {m : DropMemo} (hm : m.Sound p) :
    ∃ fuel m', p.settle fuel needs m = some (ns, m') := by
  -- a type that is asked about needs fuel of its own, and the rest goes on with the new memory
  have step : ∀ {t : Ty} {kind : UseKind} {span : Span} {rest : List Need} {ms : List Neighbor}
      {b : Bool} {m : DropMemo}, (∀ i, t ≠ .dyn i) → p.Drops t b → m.Sound p →
      (∀ {m : DropMemo}, m.Sound p → ∃ fuel m', p.settle fuel rest m = some (ms, m')) →
      ∃ fuel m', p.settle fuel (.glue t kind span :: rest) m =
        some (((if b then some (Instance.glue t) else none).toList.map
          fun inst => ⟨inst, kind, span⟩) ++ ms, m') := by
    intro t kind span rest ms b m hne hdrops hm ih
    obtain ⟨fuel₁, m₁, hm₁, h₁⟩ := classify_complete hacyclic hdrops (around_empty t) m hm
    obtain ⟨fuel₂, m₂, h₂⟩ := ih hm₁
    have hb := classify_mono (Nat.le_max_left fuel₁ fuel₂) h₁
    have hglue := (glue?_eq_some_iff hne).2 ⟨b, hb, rfl⟩
    have hrest := settle_mono (Nat.le_max_right fuel₁ fuel₂) h₂
    exact ⟨max fuel₁ fuel₂, m₂, settle_glue_eq_some_iff.2 ⟨_, m₁, ms, hglue, hrest, rfl⟩⟩
  induction h generalizing m with
  | nil => exact ⟨0, m, rfl⟩
  | use _ ih =>
    obtain ⟨fuel, m', h⟩ := ih hm
    exact ⟨fuel, m', settle_use_eq_some_iff.2 ⟨_, h, rfl⟩⟩
  | object _ ih =>
    obtain ⟨fuel, m', h⟩ := ih hm
    exact ⟨fuel, m', settle_glue_eq_some_iff.2 ⟨none, m, _, rfl, h, rfl⟩⟩
  | @harmless t _ _ _ _ hd _ ih =>
    -- a trait object would not be harmless
    have hne : ∀ i, t ≠ .dyn i := by
      intro i h
      rw [h] at hd
      exact not_drops_dyn_false hd
    exact step hne hd hm ih
  | glue hne hd _ ih => exact step hne hd hm ih

/-! ## Scans -/

/-- What the scan of an instance returns, starting with some memory that has a property. -/
def ScansFrom (p : Program) (unused : UnusedSets) (M : DropMemo → Prop) (inst : Instance)
    (ns : List Neighbor) : Prop :=
  (p.needs unused inst).failure = none ∧ ∃ fuel m m', M m ∧
    p.settle fuel (p.needs unused inst).found m = some (ns, m')

/-- What the scan of an instance returns, starting without any memory. -/
def Scans (p : Program) (unused : UnusedSets) (inst : Instance) (ns : List Neighbor) : Prop :=
  (p.needs unused inst).failure = none ∧ ∃ fuel m,
    p.settle fuel (p.needs unused inst).found {} = some (ns, m)

/-- A scan that starts with right entries returns what is left by the true answers. -/
theorem scansFrom_sound_iff (hacyclic : p.ByValueAcyclic) {inst : Instance} {ns : List Neighbor} :
    p.ScansFrom unused (DropMemo.Sound p) inst ns ↔
      (p.needs unused inst).failure = none ∧ p.Settles (p.needs unused inst).found ns := by
  constructor
  · intro ⟨hfail, fuel, m, m', hm, h⟩
    exact ⟨hfail, (settle_sound hacyclic hm h).1⟩
  · intro ⟨hfail, h⟩
    obtain ⟨fuel, m', hm'⟩ := settle_complete hacyclic h DropMemo.sound_empty
    exact ⟨hfail, fuel, {}, m', DropMemo.sound_empty, hm'⟩

/-- So does a scan that starts without any. -/
theorem scans_iff (hacyclic : p.ByValueAcyclic) {inst : Instance} {ns : List Neighbor} :
    p.Scans unused inst ns ↔
      (p.needs unused inst).failure = none ∧ p.Settles (p.needs unused inst).found ns := by
  constructor
  · intro ⟨hfail, fuel, m, h⟩
    exact ⟨hfail, (settle_sound hacyclic DropMemo.sound_empty h).1⟩
  · intro ⟨hfail, h⟩
    exact ⟨hfail, settle_complete hacyclic h DropMemo.sound_empty⟩

/-- What has been looked at before makes no difference to a scan. -/
theorem scansFrom_sound (hacyclic : p.ByValueAcyclic) {inst : Instance} {ns : List Neighbor} :
    p.ScansFrom unused (DropMemo.Sound p) inst ns ↔ p.Scans unused inst ns :=
  (scansFrom_sound_iff hacyclic).trans (scans_iff hacyclic).symm

/-- A scan has one result. -/
theorem Scans.inj (hacyclic : p.ByValueAcyclic) {inst : Instance} {ns ns' : List Neighbor}
    (h : p.Scans unused inst ns) (h' : p.Scans unused inst ns') : ns = ns' :=
  ((scans_iff hacyclic).1 h).2.inj ((scans_iff hacyclic).1 h').2

/-- Every neighbor of a scan is required by one of the rules. -/
theorem ScansFrom.requires {M : DropMemo → Prop} {inst : Instance} {ns : List Neighbor}
    (h : p.ScansFrom unused M inst ns) {n : Neighbor} (hn : n ∈ ns) :
    p.Requires unused inst (.use n) ∨
      ∃ t, p.Requires unused inst (.glue t n.kind n.span) ∧ n.inst = .glue t := by
  obtain ⟨hfail, fuel, m, m', -, h⟩ := h
  obtain hn | ⟨t, ht, hinst, -⟩ := (sifts_of_settle h).found hn
  · exact .inl (requires_of_finds (Needs.finds_found hfail) hn)
  · exact .inr ⟨t, requires_of_finds (Needs.finds_found hfail) ht, hinst⟩

end Program

end Monomorph
