import TypedLowering.Proofs.Control.Flow

/-!
# The discipline of statement lists

`Obeys` says how a list of flows may end and jump: where it has to return, no run comes to its end;
where it must not, no return stands in it; and a jump to the next iteration of a loop stands at the
end of its list, outside of loops and try statements. Each way to put lists together has one lemma,
so a back end only has to say how it puts its statements together.
-/

/-!
## Statement lists at function level

The statement lists that a list of flows is made of: the list itself and the lists inside its
statements, but nothing inside nested functions, which are leaves. Where a return or a jump may
stand is said by these lists.
-/

namespace TypedLowering.Control

variable {σ ε : Type}

/-- A statement list, and whether it stands inside a loop or a try statement. -/
structure Block (σ ε : Type) where
  isGuarded : Bool
  flows : List (Flow σ ε)

mutual

/-- The lists inside a flow. -/
def Flow.inner (isGuarded : Bool) : Flow σ ε → List (Block σ ε)
  | .step _ | .ret _ | .raise _ | .breakTo _ | .continueTo _ => []
  | .block body => ⟨isGuarded, body⟩ :: innerAll isGuarded body
  | .choose _ thenFlows elseFlows =>
    ⟨isGuarded, thenFlows⟩ :: innerAll isGuarded thenFlows ++
      ⟨isGuarded, elseFlows⟩ :: innerAll isGuarded elseFlows
  | .loop _ body => ⟨true, body⟩ :: innerAll true body
  | .switch _ cases => innerCases isGuarded cases
  | .protect _ body handler finalizer =>
    ⟨true, body⟩ :: innerAll true body ++ innerOption handler ++ innerOption finalizer
  | .labeled _ body => ⟨isGuarded, [body]⟩ :: body.inner isGuarded

/-- The lists inside flows. -/
def innerAll (isGuarded : Bool) : List (Flow σ ε) → List (Block σ ε)
  | [] => []
  | f :: fs => f.inner isGuarded ++ innerAll isGuarded fs

/-- The list of a handler or a finalizer, and the lists inside it. -/
def innerOption : Option (List (Flow σ ε)) → List (Block σ ε)
  | none => []
  | some fs => ⟨true, fs⟩ :: innerAll true fs

/-- The lists of the cases of a switch, and the lists inside them. -/
def innerCases (isGuarded : Bool) : List (Case σ ε) → List (Block σ ε)
  | [] => []
  | ⟨_, body⟩ :: cases =>
    ⟨isGuarded, body⟩ :: innerAll isGuarded body ++ innerCases isGuarded cases

end

/-- The statement lists that flows are made of. -/
def blocks (isGuarded : Bool) (fs : List (Flow σ ε)) : List (Block σ ε) :=
  ⟨isGuarded, fs⟩ :: innerAll isGuarded fs

/-- The inner lists of a sequence are those of both parts. -/
@[simp] theorem innerAll_append (g : Bool) (as bs : List (Flow σ ε)) :
    innerAll g (as ++ bs) = innerAll g as ++ innerAll g bs := by
  induction as with
  | nil => rfl
  | cons a as ih => simp only [List.cons_append, innerAll, ih, List.append_assoc]

/-- The lists inside a handler or a finalizer are its blocks. -/
theorem mem_innerOption {B : Block σ ε} {o : Option (List (Flow σ ε))} (h : B ∈ innerOption o) :
    ∃ fs, o = some fs ∧ B ∈ blocks true fs := by
  cases o with
  | none => cases h
  | some fs => exact ⟨fs, rfl, h⟩

/-- The lists inside the cases of a switch are the blocks of their bodies. -/
theorem mem_innerCases {g : Bool} {B : Block σ ε} {cases : List (Case σ ε)}
    (h : B ∈ innerCases g cases) : ∃ c ∈ cases, B ∈ blocks g c.body := by
  induction cases with
  | nil => cases h
  | cons c cases ih =>
    obtain ⟨tests, body⟩ := c
    simp only [innerCases, List.cons_append, List.mem_cons, List.mem_append] at h
    rcases h with rfl | h | h
    · exact ⟨_, List.mem_cons_self, List.mem_cons_self⟩
    · exact ⟨_, List.mem_cons_self, List.mem_cons_of_mem _ h⟩
    · obtain ⟨c, hc, hB⟩ := ih h
      exact ⟨c, List.mem_cons_of_mem _ hc, hB⟩

mutual

/-- A list inside a flow also is one when there is no loop around, and the other way round. -/
theorem Flow.inner_flows (g : Bool) (f : Flow σ ε) :
    (f.inner g).map (·.flows) = (f.inner false).map (·.flows) := by
  cases f with
  | step | ret | raise | breakTo | continueTo => rfl
  | block body => simp only [Flow.inner, List.map_cons, innerAll_flows g body]
  | choose _ a b =>
    simp only [Flow.inner, List.map_cons, List.map_append, innerAll_flows g a, innerAll_flows g b]
  | loop | protect => rfl
  | switch _ cases => simp only [Flow.inner, innerCases_flows g cases]
  | labeled _ body => simp only [Flow.inner, List.map_cons, Flow.inner_flows g body]

/-- Which lists stand inside does not depend on what is around. -/
theorem innerAll_flows (g : Bool) (fs : List (Flow σ ε)) :
    (innerAll g fs).map (·.flows) = (innerAll false fs).map (·.flows) := by
  cases fs with
  | nil => rfl
  | cons f fs => simp only [innerAll, List.map_append, Flow.inner_flows g f, innerAll_flows g fs]

/-- Which lists stand in cases does not depend on what is around. -/
theorem innerCases_flows (g : Bool) (cases : List (Case σ ε)) :
    (innerCases g cases).map (·.flows) = (innerCases false cases).map (·.flows) := by
  cases cases with
  | nil => rfl
  | cons c cases =>
    obtain ⟨tests, body⟩ := c
    simp only [innerCases, List.map_cons, List.map_append, innerAll_flows g body,
      innerCases_flows g cases]

end

/-- The blocks are the same lists, whatever is around them. -/
theorem blocks_flows {g : Bool} {fs : List (Flow σ ε)} {B : Block σ ε} (h : B ∈ blocks g fs) :
    ∃ C ∈ blocks false fs, C.flows = B.flows := by
  have hmap : (blocks g fs).map (·.flows) = (blocks false fs).map (·.flows) := by
    simp only [blocks, List.map_cons, innerAll_flows g fs]
  have hmem : B.flows ∈ (blocks false fs).map (·.flows) :=
    hmap ▸ List.mem_map_of_mem h
  exact List.mem_map.1 hmem

/-- An element of two lists, one after the other, stands in the first one or in the second one. -/
theorem mem_or_split_of_append_eq {α : Type} {as bs pre post : List α} {f : α}
    (he : as ++ bs = pre ++ f :: post) :
    f ∈ as ∨ ∃ mid, pre = as ++ mid ∧ bs = mid ++ f :: post := by
  rcases List.append_eq_append_iff.1 he with ⟨mid, hpre, hmid⟩ | ⟨mid, has, hmid⟩
  · exact .inr ⟨mid, hpre, hmid⟩
  · cases mid with
    | nil => exact .inr ⟨[], by rw [has, List.append_nil, List.append_nil], hmid.symm⟩
    | cons g mid =>
      obtain ⟨rfl, -⟩ := List.cons.inj hmid
      exact .inl (has ▸ List.mem_append_right _ List.mem_cons_self)

/-- The jumps to the next iteration of a loop that are allowed: the statements that belong to the
jump and stand right before it, and its label. -/
abbrev Jumps (σ ε : Type) := List (Flow σ ε) → Option String → Prop

/-- No jumps. -/
def noJumps : Jumps σ ε := fun _ _ => False

namespace Jumps

variable {J K : Jumps σ ε} {pre : List (Flow σ ε)} {l : Option String}

/-- Whether a jump may stand after the statements `pre`. -/
def After (J : Jumps σ ε) (pre : List (Flow σ ε)) (l : Option String) : Prop :=
  ∃ rest own, pre = rest ++ own ∧ J own l

/-- Where a jump may stand, it may stand among more jumps. -/
theorem After.mono (hJK : ∀ own l, J own l → K own l) : J.After pre l → K.After pre l := by
  rintro ⟨rest, own, hpre, h⟩
  exact ⟨rest, own, hpre, hJK _ _ h⟩

/-- A jump may stand after more statements. -/
theorem After.prepend (as : List (Flow σ ε)) : J.After pre l → J.After (as ++ pre) l := by
  rintro ⟨rest, own, rfl, h⟩
  exact ⟨as ++ rest, own, by rw [List.append_assoc], h⟩

/-- Where there are no jumps, none may stand. -/
theorem not_after_noJumps : ¬ (noJumps : Jumps σ ε).After pre l := by
  rintro ⟨_, _, -, h⟩
  exact h

end Jumps

/-- Whether statements may end so. With `ret` they have to return, and without it they come to their
end. -/
def Exit.Fits (ret : Bool) (J : Jumps σ ε) : Exit → Prop
  | .normal => ret = false
  | .returned => ret = true
  | .raised => True
  | .broke _ => False
  | .continued l => ∃ own, J own l

/-- More jumps let more exits fit. -/
theorem Exit.Fits.mono {ret : Bool} {J K : Jumps σ ε} (hJK : ∀ own l, J own l → K own l)
    {x : Exit} (h : x.Fits ret J) : x.Fits ret K := by
  cases x with
  | continued l => exact h.imp fun own => hJK own l
  | normal | returned | raised | broke => exact h

/-- Statements that only come to their end or raise end as any statements may that need not
return. -/
theorem Exit.Fits.normal_or_raised {x : Exit} (h : x.Fits false (noJumps : Jumps σ ε)) :
    x = .normal ∨ x = .raised := by
  cases x with
  | normal => exact .inl rfl
  | raised => exact .inr rfl
  | returned => cases h
  | broke => cases h
  | continued => obtain ⟨_, h⟩ := h; cases h

/-- Whether a statement may stand in a list: a return only where the list has to return, and a label
nowhere. -/
def Flow.Allowed (ret : Bool) : Flow σ ε → Prop
  | .ret _ => ret = true
  | .labeled .. => False
  | _ => True

/-- A flow that is allowed where nothing returns is allowed anywhere. -/
theorem Flow.Allowed.mono {f : Flow σ ε} (ret : Bool) (h : f.Allowed false) : f.Allowed ret := by
  cases f with
  | ret | labeled => cases h
  | _ => trivial

/-- The discipline of a statement list. -/
structure Obeys (ret : Bool) (J : Jumps σ ε) (fs : List (Flow σ ε)) : Prop where
  exit : ∀ (M : Machine σ ε) {a x b}, runAll M fs a x b → x.Fits ret J
  /-- A jump in the list itself is its last statement. -/
  last : ∀ {pre l post}, fs = pre ++ .continueTo l :: post → post = [] ∧ J.After pre l
  /-- A jump in a list further inside is outside of loops and try statements, and its last
  statement but for the break of a case. -/
  jump : ∀ B ∈ innerAll false fs, ∀ {pre l post}, B.flows = pre ++ .continueTo l :: post →
    B.isGuarded = false ∧ (post = [] ∨ post = [.breakTo none]) ∧ J.After pre l
  allowed : ∀ B ∈ blocks false fs, ∀ f ∈ B.flows, f.Allowed ret

namespace Obeys

variable {ret : Bool} {J K : Jumps σ ε} {as bs fs : List (Flow σ ε)}

/-- More jumps are obeyed by more flows. -/
theorem mono (hJK : ∀ own l, J own l → K own l) (h : Obeys ret J fs) : Obeys ret K fs where
  exit M _ _ _ hr := (h.exit M hr).mono hJK
  last he := ⟨(h.last he).1, (h.last he).2.mono hJK⟩
  jump B hB _ _ _ he :=
    have hj := h.jump B hB he
    ⟨hj.1, hj.2.1, hj.2.2.mono hJK⟩
  allowed := h.allowed

/-- Without allowed jumps there are none in the list. -/
theorem continueTo_not_mem (h : Obeys ret noJumps fs) {B : Block σ ε} (hB : B ∈ blocks false fs)
    (l : Option String) : .continueTo l ∉ B.flows := by
  intro hmem
  obtain ⟨pre, post, he⟩ := List.append_of_mem hmem
  rcases List.mem_cons.1 hB with rfl | hB
  · exact Jumps.not_after_noJumps (h.last he).2
  · exact Jumps.not_after_noJumps (h.jump B hB he).2.2

/-- A list whose own runs and jumps are in order and in which no list is further inside. -/
theorem of_flat (hexit : ∀ (M : Machine σ ε) {a x b}, runAll M fs a x b → x.Fits ret J)
    (hinner : innerAll false fs = [])
    (hlast : ∀ {pre l post}, fs = pre ++ .continueTo l :: post → post = [] ∧ J.After pre l)
    (hallowed : ∀ f ∈ fs, f.Allowed ret) : Obeys ret J fs where
  exit := hexit
  last := hlast
  jump B hB := by rw [hinner] at hB; cases hB
  allowed B hB := by
    rw [blocks, hinner, List.mem_singleton] at hB
    exact hB ▸ hallowed

/-- A jump cannot stand in a list of one other statement. -/
theorem not_singleton {f : Flow σ ε} (hf : ∀ l, f ≠ .continueTo l) {pre post : List (Flow σ ε)}
    {l : Option String} (he : [f] = pre ++ .continueTo l :: post) : False := by
  have hmem : Flow.continueTo l ∈ [f] := he ▸ List.mem_append_right _ List.mem_cons_self
  exact hf l (List.mem_singleton.1 hmem).symm

/-- In the list itself and further inside alike, a jump is outside of loops and try statements. -/
theorem jump_of_mem (h : Obeys ret J fs) {B : Block σ ε} (hB : B ∈ blocks false fs)
    {pre post : List (Flow σ ε)} {l : Option String} (he : B.flows = pre ++ .continueTo l :: post) :
    B.isGuarded = false ∧ (post = [] ∨ post = [.breakTo none]) ∧ J.After pre l := by
  rcases List.mem_cons.1 hB with rfl | hB
  · exact ⟨rfl, .inl (h.last he).1, (h.last he).2⟩
  · exact h.jump B hB he

/-- Nothing changes for the lists without jumps when there is a loop around them. -/
theorem guarded (h : Obeys ret noJumps fs) {B : Block σ ε} (hB : B ∈ blocks true fs) :
    (∀ l, .continueTo l ∉ B.flows) ∧ ∀ f ∈ B.flows, f.Allowed ret := by
  obtain ⟨C, hC, heq⟩ := blocks_flows hB
  rw [← heq]
  exact ⟨h.continueTo_not_mem hC, h.allowed C hC⟩

/-- The statement that is its own list, with the lists inside it. -/
theorem of_singleton {f : Flow σ ε} (hf : ∀ l, f ≠ .continueTo l) (hallowed : f.Allowed ret)
    (hexit : ∀ (M : Machine σ ε) {a x b}, f.run M [] a x b → x.Fits ret J)
    (hjump : ∀ B ∈ f.inner false, ∀ {pre l post}, B.flows = pre ++ .continueTo l :: post →
      B.isGuarded = false ∧ (post = [] ∨ post = [.breakTo none]) ∧ J.After pre l)
    (hinner : ∀ B ∈ f.inner false, ∀ g ∈ B.flows, g.Allowed ret) : Obeys ret J [f] where
  exit M _ _ _ hrun := hexit M (by rwa [runAll_singleton] at hrun)
  last he := (not_singleton hf he).elim
  jump B hB := hjump B (by simpa only [innerAll, List.append_nil] using hB)
  allowed B hB := by
    simp only [blocks, innerAll, List.append_nil, List.mem_cons] at hB
    rcases hB with rfl | hB
    · intro g hg
      exact List.mem_singleton.1 hg ▸ hallowed
    · exact hinner B hB

/-! ## Simple statements -/

/-- The empty list comes to its end and does nothing else. -/
theorem nil : Obeys (σ := σ) (ε := ε) false J [] :=
  of_flat (fun _ _ _ _ h => by obtain ⟨rfl, -⟩ := h; exact rfl) rfl
    (fun he => (List.append_ne_nil_of_right_ne_nil _ (List.cons_ne_nil _ _) he.symm).elim)
    nofun

/-- A leaf comes to its end or raises. -/
theorem step (code : σ) : Obeys (ε := ε) false J [.step code] := by
  refine of_singleton nofun trivial (fun M a x b h => ?_) (fun _ hB => by cases hB)
    (fun _ hB => by cases hB)
  rcases h with ⟨-, rfl⟩ | ⟨-, rfl⟩
  · exact rfl
  · trivial

/-- A return ends a list that has to return. -/
theorem returns (code : σ) : Obeys (ε := ε) true J [.ret code] := by
  refine of_flat (fun M a x b h => ?_) rfl
    (fun he => (not_singleton (f := .ret code) (fun _ => nofun) he).elim) fun f hf => ?_
  · rw [runAll_singleton] at h
    rcases h with ⟨-, rfl⟩ | ⟨-, rfl⟩
    · exact rfl
    · trivial
  · exact List.mem_singleton.1 hf ▸ rfl

/-- An exception ends a list of either kind. -/
theorem raises (code : σ) : Obeys (ε := ε) ret J [.raise code] := by
  refine of_singleton nofun trivial (fun M a x b h => ?_) (fun _ hB => by cases hB)
    (fun _ hB => by cases hB)
  rcases h with ⟨-, rfl⟩ | ⟨-, rfl⟩ <;> trivial

/-- A jump with the statements that belong to it. -/
theorem continues {own : List (Flow σ ε)} {l : Option String} (hown : Obeys false noJumps own)
    (hJ : J own l) : Obeys ret J (own ++ [.continueTo l]) where
  exit M a x b h := by
    rw [runAll_append, runAll_singleton] at h
    rcases h with ⟨h, hx⟩ | ⟨m, -, rfl, -⟩
    · rcases (hown.exit M h).normal_or_raised with rfl | rfl
      · exact absurd rfl hx
      · trivial
    · exact ⟨own, hJ⟩
  last {pre l' post} he := by
    rcases mem_or_split_of_append_eq he with hmem | ⟨mid, rfl, hmid⟩
    · exact absurd hmem (hown.continueTo_not_mem List.mem_cons_self l')
    · rcases List.singleton_eq_append_iff.1 hmid with ⟨rfl, hf⟩ | ⟨-, hf⟩
      · obtain ⟨rfl, rfl⟩ : l' = l ∧ post = [] := by simpa using hf
        exact ⟨rfl, [], own, by rw [List.append_nil, List.nil_append], hJ⟩
      · cases hf
  jump B hB := by
    rw [innerAll_append, List.mem_append] at hB
    rcases hB with hB | hB
    · intro pre l post he
      exact absurd (hown.jump B hB he).2.2 Jumps.not_after_noJumps
    · cases hB
  allowed B hB f hf := by
    rcases List.mem_cons.1 hB with rfl | hB
    · rcases List.mem_append.1 hf with hf | hf
      · exact (hown.allowed _ List.mem_cons_self f hf).mono ret
      · obtain rfl := List.mem_singleton.1 hf
        trivial
    · rw [innerAll_append, List.mem_append] at hB
      rcases hB with hB | hB
      · exact (hown.allowed B (List.mem_cons_of_mem _ hB) f hf).mono ret
      · cases hB

/-! ## Statements one after the other -/

/-- Statements that are run for their effects, and then others. -/
theorem append (ha : Obeys false noJumps as) (hb : Obeys ret J bs) : Obeys ret J (as ++ bs) where
  exit M a x b h := by
    rw [runAll_append] at h
    rcases h with ⟨h, hx⟩ | ⟨m, -, h⟩
    · rcases (ha.exit M h).normal_or_raised with rfl | rfl
      · exact absurd rfl hx
      · trivial
    · exact hb.exit M h
  last {pre l post} he := by
    rcases mem_or_split_of_append_eq he with hmem | ⟨mid, rfl, hmid⟩
    · exact absurd hmem (ha.continueTo_not_mem List.mem_cons_self l)
    · exact ⟨(hb.last hmid).1, (hb.last hmid).2.prepend as⟩
  jump B hB {pre l post} he := by
    rw [innerAll_append, List.mem_append] at hB
    rcases hB with hB | hB
    · exact absurd (ha.jump B hB he).2.2 Jumps.not_after_noJumps
    · exact hb.jump B hB he
  allowed B hB f hf := by
    rcases List.mem_cons.1 hB with rfl | hB
    · rcases List.mem_append.1 hf with hf | hf
      · exact (ha.allowed _ List.mem_cons_self f hf).mono ret
      · exact hb.allowed _ List.mem_cons_self f hf
    · rw [innerAll_append, List.mem_append] at hB
      rcases hB with hB | hB
      · exact (ha.allowed B (List.mem_cons_of_mem _ hB) f hf).mono ret
      · exact hb.allowed B (List.mem_cons_of_mem _ hB) f hf

/-- A flow that neither returns nor jumps may stand in front. -/
theorem cons {f : Flow σ ε} (hf : Obeys false noJumps [f]) (hb : Obeys ret J bs) :
    Obeys ret J (f :: bs) :=
  append hf hb

/-- Leaves only. -/
theorem steps (codes : List σ) : Obeys (ε := ε) false noJumps (codes.map .step) := by
  induction codes with
  | nil => exact nil
  | cons code codes ih => exact cons (step code) ih

/-! ## Branches -/

/-- A branch obeys what both of its sides obey. -/
theorem choose {guard : ε} (ha : Obeys ret J as) (hb : Obeys ret J bs) :
    Obeys ret J [.choose guard as bs] := by
  have hinner : ∀ B, B ∈ (Flow.choose (σ := σ) guard as bs).inner false →
      B ∈ blocks false as ∨ B ∈ blocks false bs := fun B hB => by
    simpa only [Flow.inner, List.cons_append, List.mem_cons, List.mem_append, blocks,
      or_assoc] using hB
  refine of_singleton (fun _ h => by cases h) trivial (fun M a x b h => ?_)
    (fun B hB => ?_) fun B hB => ?_
  · rcases h with ⟨-, rfl⟩ | ⟨m, -, h⟩ | ⟨m, -, h⟩
    · trivial
    · exact ha.exit M h
    · exact hb.exit M h
  · rcases hinner B hB with hB | hB
    · exact ha.jump_of_mem hB
    · exact hb.jump_of_mem hB
  · rcases hinner B hB with hB | hB
    · exact ha.allowed B hB
    · exact hb.allowed B hB

end Obeys

end TypedLowering.Control
