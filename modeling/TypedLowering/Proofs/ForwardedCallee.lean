import Mathlib.Data.Option.Basic
import TypedLowering.Printing.Code

/-!
# Functions that are printed as their callee

A call binds the parameters of a function to the arguments one by one: a missing argument is
`undefined`, what is left over goes into a rest parameter, and without one it is dropped. So a
function that only forwards passes on what it was called with if the arguments fill its parameters,
and only then (`forwardedCallee_passes`): `(x) => g(x)` calls `g` with exactly one argument, however
many it was called with (`surplusArgument_isDropped`).
-/

namespace TypedLowering.JavaScript

/-- A value, as far as the passing of arguments looks at it. -/
inductive Value (O : Type) where
  | undefined
  | array (items : List (Value O))
  | other (value : O)

/-- The values of the variables in scope. -/
abbrev Env (O : Type) := String → Option (Value O)

variable {O R : Type}

namespace Env

/-- The environment with another value for one name. -/
def bind (env : Env O) (name : String) (v : Value O) : Env O :=
  fun x => if x = name then some v else env x

/-- The scope in which the parameters have taken the arguments of a call. -/
def bindAll (env : Env O) : List Param → List (Value O) → Env O
  | [], _ => env
  | p :: ps, actuals =>
    if p.isRest then (env.bind p.name (.array actuals)).bindAll ps []
    else (env.bind p.name (actuals.head?.getD .undefined)).bindAll ps actuals.tail

@[simp] theorem bind_self (env : Env O) (name : String) (v : Value O) :
    env.bind name v name = some v :=
  if_pos rfl

theorem bind_of_ne (env : Env O) {x name : String} (v : Value O) (h : x ≠ name) :
    env.bind name v x = env x :=
  if_neg h

theorem bindAll_of_not_mem {x : String} {ps : List Param} (env : Env O)
    (actuals : List (Value O)) (h : x ∉ ps.map (·.name)) : env.bindAll ps actuals x = env x := by
  induction ps generalizing env actuals with
  | nil => rfl
  | cons p ps ih =>
    rw [List.map_cons, List.mem_cons, not_or] at h
    rw [bindAll]
    split <;> rw [ih _ _ h.2, bind_of_ne _ _ h.1]

end Env

/-- The values that an argument passes, if it is an identifier or the items of one. -/
def Expr.passed (env : Env O) (arg : Expr) : Option (List (Value O)) :=
  match arg.form with
  | .ident name => (env name).map ([·])
  | .spread ⟨_, .ident name⟩ =>
    match env name with
    | some (.array items) => some items
    | _ => none
  | _ => none

/-- The values that the arguments pass. -/
def passedBy (env : Env O) : List Expr → Option (List (Value O))
  | [] => some []
  | arg :: args => do return (← arg.passed env) ++ (← passedBy env args)

/-- The scope of a function body. The name of a function is bound in it, unless a parameter has
the same name. -/
def Func.scope (f : Func) (env : Env O) (self : Value O) (actuals : List (Value O)) : Env O :=
  (f.name.elim env (env.bind · self)).bindAll f.params actuals

/-- What a call returns if all that the body does is to call an identifier. -/
def Func.result (apply : Value O → List (Value O) → R) (f : Func) (env : Env O) (self : Value O)
    (actuals : List (Value O)) : Option R := do
  let .call ⟨_, .ident name⟩ args := (← f.body.soleValue?).form | none
  let callee ← f.scope env self actuals name
  return apply callee (← passedBy (f.scope env self actuals) args)

/-- The values that the parameters have taken, in order. -/
def received : List Param → List (Value O) → List (Value O)
  | [], _ => []
  | p :: ps, actuals =>
    if p.isRest then actuals else actuals.head?.getD .undefined :: received ps actuals.tail

/-- Whether so many arguments give each parameter its own and leave none over. -/
def AreFilledBy (params : List Param) (count : Nat) : Prop :=
  if params.any (·.isRest) then params.length ≤ count + 1 else count = params.length

instance (params : List Param) (count : Nat) : Decidable (AreFilledBy params count) :=
  inferInstanceAs (Decidable (if params.any (·.isRest) then _ else _))

/-- Whether no parameter but the last is a rest parameter. -/
def RestIsLast (params : List Param) : Prop :=
  ∀ p ∈ params.dropLast, p.isRest = false

theorem RestIsLast.tail {p : Param} {ps : List Param} (h : RestIsLast (p :: ps)) :
    RestIsLast ps := by
  cases ps with
  | nil => exact nofun
  | cons q ps => exact fun r hr => h r (List.mem_cons_of_mem _ hr)

theorem RestIsLast.eq_nil {p : Param} {ps : List Param} (h : RestIsLast (p :: ps))
    (hp : p.isRest = true) : ps = [] := by
  cases ps with
  | nil => rfl
  | cons q ps => exact absurd (h p List.mem_cons_self) (by simp [hp])

theorem received_eq_self_iff {params : List Param} (h : RestIsLast params)
    (actuals : List (Value O)) :
    received params actuals = actuals ↔ AreFilledBy params actuals.length := by
  induction params generalizing actuals with
  | nil => cases actuals <;> simp [received, AreFilledBy]
  | cons p ps ih =>
    by_cases hp : p.isRest = true
    · obtain rfl := h.eq_nil hp
      simp [received, AreFilledBy, hp]
    · cases actuals with
      | nil =>
        have hlength (hany : ps.any (·.isRest) = true) : ps.length ≠ 0 := by
          rintro h0
          simp [List.length_eq_zero_iff.1 h0] at hany
        simpa [received, AreFilledBy, hp] using hlength
      | cons v actuals => simpa [received, AreFilledBy, hp] using ih h.tail actuals

/-- An argument that passes a parameter on passes what the parameter has taken. -/
theorem Param.passed_of_isForwardedBy {p : Param} {arg : Expr} {env : Env O}
    {actuals : List (Value O)} (h : p.isForwardedBy arg = true)
    (hv : env p.name = some (if p.isRest then .array actuals else actuals.head?.getD .undefined)) :
    arg.passed env = some (if p.isRest then actuals else [actuals.head?.getD .undefined]) := by
  rw [isForwardedBy] at h
  split at h
  case h_1 name hp harg =>
    obtain rfl := eq_of_beq h
    simp [Expr.passed, harg, hv, hp]
  case h_2 inner hp harg =>
    obtain ⟨loc, form⟩ := inner
    split at h
    case h_1 name hname =>
      obtain rfl := eq_of_beq h
      obtain rfl : form = .ident _ := hname
      simp [Expr.passed, harg, hv, hp]
    case h_2 => exact nomatch h
  case h_3 => exact nomatch h

theorem passedBy_bindAll {params : List Param} {args : List Expr}
    (distinct : (params.map (·.name)).Nodup) (hrest : RestIsLast params)
    (hlength : args.length = params.length)
    (h : (params.zip args).all (fun (p, arg) => p.isForwardedBy arg) = true) (env : Env O)
    (actuals : List (Value O)) :
    passedBy (env.bindAll params actuals) args = some (received params actuals) := by
  induction params generalizing env actuals args with
  | nil => rw [List.length_eq_zero_iff.1 hlength]; rfl
  | cons p ps ih =>
    cases args with
    | nil => exact nomatch hlength
    | cons arg args =>
      rw [List.zip_cons_cons, List.all_cons, Bool.and_eq_true] at h
      rw [List.map_cons, List.nodup_cons] at distinct
      have hv : env.bindAll (p :: ps) actuals p.name =
          some (if p.isRest then .array actuals else actuals.head?.getD .undefined) := by
        rw [Env.bindAll]
        split <;> rw [Env.bindAll_of_not_mem _ _ distinct.1, Env.bind_self]
      rw [passedBy, Param.passed_of_isForwardedBy h.1 hv]
      by_cases hp : p.isRest = true
      · -- A rest parameter is the last one, so no argument is left.
        obtain rfl := hrest.eq_nil hp
        obtain rfl : args = [] := List.length_eq_zero_iff.1 (Nat.succ.inj hlength)
        simp [passedBy, received, hp]
      · have hrec := ih distinct.2 hrest.tail (Nat.succ.inj hlength) h.2
          (env.bind p.name (actuals.head?.getD .undefined)) actuals.tail
        simp [Env.bindAll, received, hp, hrec]

/-- What a function that forwards looks like. -/
theorem Func.forwardedCallee_eq_some {f : Func} {c : String} (hf : f.forwardedCallee = some c) :
    ∃ loc cloc args, f.body.soleValue? = some ⟨loc, .call ⟨cloc, .ident c⟩ args⟩ ∧
      f.name ≠ some c ∧ c ∉ f.params.map (·.name) ∧ args.length = f.params.length ∧
      (f.params.zip args).all (fun (p, arg) => p.isForwardedBy arg) = true := by
  rw [Func.forwardedCallee] at hf
  obtain ⟨⟨loc, form⟩, hvalue, hf⟩ := Option.bind_eq_some_iff.1 hf
  cases form
  case call callee args =>
    obtain ⟨cloc, cform⟩ := callee
    cases cform
    case ident name =>
      obtain ⟨_, hcallee, hf⟩ := Option.bind_eq_some_iff.1 hf
      obtain ⟨_, hargs, hf⟩ := Option.bind_eq_some_iff.1 hf
      obtain ⟨hname, hparams, hlength⟩ := (Option.guard_eq_some' _).1 hcallee
      obtain rfl := Option.some.inj hf
      refine ⟨loc, cloc, args, hvalue, hname, fun hmem => ?_, hlength,
        (Option.guard_eq_some' _).1 hargs⟩
      obtain ⟨p, hp, rfl⟩ := List.mem_map.1 hmem
      simpa using List.all_eq_true.1 hparams p hp
    all_goals exact nomatch hf
  all_goals exact nomatch hf

/-- A function that forwards calls its callee with what its parameters have taken. -/
theorem result_of_forwardedCallee {f : Func} {c : String} (hf : f.forwardedCallee = some c)
    (distinct : (f.params.map (·.name)).Nodup) (hrest : RestIsLast f.params)
    (apply : Value O → List (Value O) → R) (env : Env O) (self : Value O)
    (actuals : List (Value O)) :
    f.result apply env self actuals = (env c).map (apply · (received f.params actuals)) := by
  obtain ⟨loc, cloc, args, hvalue, hname, hparams, hlength, hargs⟩ :=
    Func.forwardedCallee_eq_some hf
  have hcallee : f.scope env self actuals c = env c := by
    rw [Func.scope, Env.bindAll_of_not_mem _ _ hparams]
    cases hself : f.name with
    | none => rfl
    | some name => exact Env.bind_of_ne _ _ fun h => hname (h ▸ hself)
  have hpassed := passedBy_bindAll distinct hrest hlength hargs
    (f.name.elim env (env.bind · self)) actuals
  rw [← Func.scope] at hpassed
  cases hc : env c <;> simp [Func.result, hvalue, hcallee, hpassed, hc]

/-- A function that is printed as its callee `c` calls `c` with what its parameters have taken.
These are the arguments of the call if and only if they fill the parameters. So where `c` still
denotes what it did when the function was made, and the arguments fill the parameters, the call
returns what a call of `c` itself returns. -/
theorem forwardedCallee_passes {f : Func} {c : String} (hf : f.forwardedCallee = some c)
    (distinct : (f.params.map (·.name)).Nodup) (hrest : RestIsLast f.params) :
    (∀ sep loc, Expr.pieces sep ⟨loc, .function f⟩ = Layout.token c loc) ∧
      ∀ {O R : Type} (apply : Value O → List (Value O) → R) (made env : Env O) (self : Value O)
        (actuals : List (Value O)),
        f.result apply env self actuals = (env c).map (apply · (received f.params actuals)) ∧
        (received f.params actuals = actuals ↔ AreFilledBy f.params actuals.length) ∧
        (AreFilledBy f.params actuals.length → made c = env c →
          f.result apply env self actuals = (made c).map (apply · actuals)) := by
  refine ⟨fun sep loc => ?_, fun apply made env self actuals => ?_⟩
  · rw [Expr.pieces, ExprForm.pieces, hf]
  · have hresult := result_of_forwardedCallee hf distinct hrest apply env self actuals
    have hreceived := received_eq_self_iff hrest actuals
    refine ⟨hresult, hreceived, fun hfill hmade => ?_⟩
    rw [hresult, hreceived.2 hfill, hmade]

/-- The function `(x) => g(x)`. -/
def forwardsOne : Func :=
  .arrow [⟨"x", false⟩] (.value (.call (.ident "g") [.ident "x"]))

/-- The function `(x, ...xs) => g(x, ...xs)`. -/
def forwardsRest : Func :=
  .arrow [⟨"x", false⟩, ⟨"xs", true⟩]
    (.value (.call (.ident "g") [.ident "x", .of (.spread (.ident "xs"))]))

/-- A scope in which `g` is a function. -/
def namesCallee (g : Value Bool) : Env Bool :=
  fun x => if x = "g" then some g else none

/-- A function that forwards a rest parameter passes on all it is called with. -/
theorem forwardsRest_passes :
    forwardsRest.forwardedCallee = some "g" ∧
    (forwardsRest.params.map (·.name)).Nodup ∧ RestIsLast forwardsRest.params ∧
    AreFilledBy forwardsRest.params 3 ∧
    forwardsRest.result Prod.mk (namesCallee (.other true)) .undefined
      [.other false, .undefined, .array []] =
        some (.other true, [.other false, .undefined, .array []]) := by
  have hf : forwardsRest.forwardedCallee = some "g" := by decide
  have distinct : (forwardsRest.params.map (·.name)).Nodup := by decide
  have hrest : RestIsLast forwardsRest.params := by
    rw [RestIsLast]
    decide
  have hfill : AreFilledBy forwardsRest.params 3 := by decide
  exact ⟨hf, distinct, hrest, hfill,
    ((forwardedCallee_passes hf distinct hrest).2 Prod.mk (namesCallee (.other true)) _ _
      [.other false, .undefined, .array []]).2.2 hfill rfl⟩

/-- A function that is printed as `g` passes one argument to `g`, where a direct call passes two
or none; and it calls what `g` denotes at the call, not what `g` denoted when the function was
made. -/
theorem surplusArgument_isDropped :
    forwardsOne.forwardedCallee = some "g" ∧
    (forwardsOne.params.map (·.name)).Nodup ∧ RestIsLast forwardsOne.params ∧
    (∀ sep, Expr.pieces sep (.of (.function forwardsOne)) = Layout.token "g" none) ∧
    forwardsOne.result Prod.mk (namesCallee (.other true)) .undefined [.other false, .other true] ≠
      (namesCallee (.other true) "g").map (·, [.other false, .other true]) ∧
    forwardsOne.result Prod.mk (namesCallee (.other true)) .undefined [] ≠
      (namesCallee (.other true) "g").map (·, []) ∧
    forwardsOne.result Prod.mk (namesCallee (.other false)) .undefined [.undefined] ≠
      (namesCallee (.other true) "g").map (·, [.undefined]) := by
  have hresult (g : Value Bool) (actuals : List (Value Bool)) :
      forwardsOne.result Prod.mk (namesCallee g) .undefined actuals =
        some (g, [actuals.head?.getD .undefined]) := rfl
  refine ⟨by decide, by decide, by simp [RestIsLast, forwardsOne, Func.arrow], fun sep => rfl, ?_⟩
  simp [hresult, namesCallee]

end TypedLowering.JavaScript
