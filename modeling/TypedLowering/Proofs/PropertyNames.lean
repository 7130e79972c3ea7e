import Mathlib.Data.List.TakeWhile
import TypedLowering.Printing.Program
import TypedLowering.Proofs.JavaScript.Declaration
import TypedLowering.Proofs.JavaScript.Function
import TypedLowering.Proofs.JavaScript.Grammar
import TypedLowering.Proofs.ReturnDiscipline

/-!
# The names of properties

A key is quoted unless it is a name, so it denotes the property that is meant. An access is printed
as it is, so it denotes the property only if that is a name (`fields_agree`): the field `my-field`
of a record is stored under its name, and the code that reads it is a difference
(`dashedField_isNoAccess`). Fields with names are read and written where they are stored, in
anonymous records and in classes, except for `__proto__`, which is no property, and for the words
that cannot be parameters of a constructor. -/

namespace TypedLowering.JavaScript

open Lower

variable {a : Alphabet}

/-! ## Names read from printed code -/

/-- The name that a key gives to a property, behind words such as `get` and up to a colon. -/
def keyName? (a : Alphabet) (text : String) : Option String :=
  match (lex a text.toList).bind fun ts => (ts.filter (· != .punctuator ":")).getLast? with
  | some (.name x) | some (.string x) => some x
  | _ => none

/-- The name of the property that an access behind an object denotes. -/
def accessName? (a : Alphabet) (text : String) : Option String :=
  match lex a text.toList with
  | some [.punctuator ".", .name x] => some x
  | _ => none

/-- The variable that a text denotes in strict code. -/
def variableName? (a : Alphabet) (text : String) : Option String :=
  match lex a text.toList with
  | some [.name x] => if x ∈ strictWords then none else some x
  | _ => none

/-- A text that has its tokens in front of nothing has these tokens. -/
theorem lex_of_lexes {text : List Char} {ts : List Token} (h : Lexes a text ts []) :
    lex a text = some ts := by
  rw [Lexes, List.append_nil, lex_nil] at h
  simpa using h

/-- A token that is a name has the characters of one. -/
theorem isName_of_nextToken {c : Char} {cs rest : List Char} {x : String}
    (h : nextToken a (c :: cs) = some (.name x, rest)) : a.IsName x := by
  have hend : ∀ digits places cs, endNumber a digits places cs ≠ some (.name x, rest) := by
    intro digits places cs hnumber
    rw [endNumber] at hnumber
    split at hnumber <;> cases hnumber
  rw [nextToken] at h
  split at h
  · rename_i hstart
    obtain ⟨hname, -⟩ := Prod.mk.inj (Option.some.inj h)
    obtain rfl := Token.name.inj hname
    exact ⟨c, _, String.toList_ofList, hstart, fun d => List.mem_takeWhile_imp⟩
  · split at h
    · rw [readNumber] at h
      simp only at h
      split at h
      · cases h
      · split at h <;> exact absurd h (hend _ _ _)
    · split at h
      · obtain ⟨_, -, hstring⟩ := Option.map_eq_some_iff.1 h
        cases hstring
      · rw [readPunctuator] at h
        split at h
        · cases h
        · obtain ⟨_, -, hpunctuator⟩ := Option.map_eq_some_iff.1 h
          cases hpunctuator

/-- A name among the tokens of a text is a name of the language. -/
theorem isName_of_mem_lex {cs : List Char} {ts : List Token} {x : String}
    (h : lex a cs = some ts) (hx : .name x ∈ ts) : a.IsName x := by
  induction hn : cs.length using Nat.strongRecOn generalizing cs ts with
  | ind n ih =>
    cases cs with
    | nil =>
      rw [lex_nil] at h
      cases h
      cases hx
    | cons c cs =>
      cases hblank : isBlank c with
      | true =>
        rw [lex_blank a hblank] at h
        exact ih cs.length (by simp [← hn]) h hx rfl
      | false =>
        rcases hnext : nextToken a (c :: cs) with _ | ⟨t, rest⟩
        · rw [lex, hblank, if_neg Bool.false_ne_true] at h
          split at h
          · cases h
          · rename_i hsome
            rw [hnext] at hsome
            cases hsome
        · rw [lex_token a hblank hnext] at h
          obtain ⟨us, hus, rfl⟩ := Option.map_eq_some_iff.1 h
          rcases List.mem_cons.1 hx with rfl | hx
          · exact isName_of_nextToken hnext
          · exact ih rest.length (hn ▸ nextToken_length a hnext) hus hx rfl

/-- A key is one token for the name that it was made from, quoted or not. -/
theorem lexes_propertyKey {k : String} (hk : isName k = true → a.IsName k) :
    ∃ t, (t = .name k ∨ t = .string k) ∧ ∀ rest : List Char, rest.head?.any a.isPart = false →
      Lexes a (propertyKey k).toList [t] rest := by
  rw [propertyKey]
  split
  · rename_i hname
    exact ⟨.name k, .inl rfl, fun rest => lexes_name (hk hname)⟩
  · exact ⟨.string k, .inr rfl, fun rest _ => lexes_string k rest⟩

/-- The words in front of a key. -/
theorem lexes_lead {lead : String}
    (h : lead ∈ ["", "get ", "set ", "static ", "static get ", "static set "]) :
    ∃ ts, ∀ rest, Lexes a lead.toList ts rest := by
  have hword : ∀ {word : String}, isWord word = true → ∀ rest,
      Lexes a (word ++ " ").toList [.name word] rest := by
    intro word h rest
    rw [String.toList_append]
    exact lexes_word h rest
  have hstatic : ∀ {word : String}, isWord word = true → ∀ rest,
      Lexes a ("static " ++ (word ++ " ")).toList [.name "static", .name word] rest := by
    intro word h rest
    rw [String.toList_append]
    exact (@hword "static" (by decide) _).append (hword h rest)
  simp only [List.mem_cons, List.not_mem_nil, or_false] at h
  rcases h with rfl | rfl | rfl | rfl | rfl | rfl
  · exact ⟨[], .nil⟩
  · exact ⟨_, @hword "get" (by decide)⟩
  · exact ⟨_, @hword "set" (by decide)⟩
  · exact ⟨_, @hword "static" (by decide)⟩
  · exact ⟨_, @hstatic "get" (by decide)⟩
  · exact ⟨_, @hstatic "set" (by decide)⟩

/-- A key gives the name that it was made from. -/
theorem keyName?_eq_some {k lead tail : String} (hk : isName k = true → a.IsName k)
    (hlead : lead ∈ ["", "get ", "set ", "static ", "static get ", "static set "])
    (htail : tail ∈ ["", ": "]) : keyName? a (lead ++ propertyKey k ++ tail) = some k := by
  obtain ⟨words, hwords⟩ := @lexes_lead a _ hlead
  obtain ⟨t, ht, hkey⟩ := lexes_propertyKey hk
  obtain ⟨colon, hcolon, htail⟩ : ∃ ts : List Token, (∀ u ∈ ts, u = .punctuator ":") ∧
      tail.toList.head?.any a.isPart = false ∧ Lexes a tail.toList ts [] := by
    rcases List.mem_pair.1 htail with rfl | rfl
    · exact ⟨[], nofun, rfl, .nil []⟩
    · have hcolon : Lexes a ":".toList [.punctuator ":"] [' '] :=
        lexes_apart (by decide) (by decide) rfl
      refine ⟨[.punctuator ":"], fun u hu => List.mem_singleton.1 hu, ?_, hcolon.append (.blank [])⟩
      show a.isPart ':' = false
      rw [a.part_ascii ':' (by decide)]
      rfl
  have hlex : lex a (lead ++ propertyKey k ++ tail).toList = some (words ++ ([t] ++ colon)) := by
    rw [String.toList_append, String.toList_append, List.append_assoc]
    refine lex_of_lexes ((hwords _).append ((hkey _ ?_).append htail.2))
    rw [List.append_nil]
    exact htail.1
  have hlast : ((words ++ ([t] ++ colon)).filter (· != .punctuator ":")).getLast? = some t := by
    have hfilter : colon.filter (· != .punctuator ":") = [] :=
      List.filter_eq_nil_iff.2 fun u hu => by simp [hcolon u hu]
    rcases ht with rfl | rfl <;> simp [hfilter]
  rw [keyName?, hlex, Option.bind_some, hlast]
  rcases ht with rfl | rfl <;> rfl

/-- An access denotes the property that it was made from exactly if that is a name. -/
theorem accessName?_eq_some {k : String} : accessName? a ("." ++ k) = some k ↔ a.IsName k := by
  constructor
  · intro h
    rw [accessName?] at h
    split at h
    · rename_i x hlex
      obtain rfl := Option.some.inj h
      exact isName_of_mem_lex hlex (by simp)
    · cases h
  · intro h
    rw [accessName?, lex_of_lexes (lexes_property h rfl)]
    rfl

/-- A name that is no reserved word is the name of a variable. -/
theorem variableName?_eq_some {x : String} (h : a.IsName x) (hx : x ∉ strictWords) :
    variableName? a x = some x := by
  rw [variableName?, lex_of_lexes (lexes_name h rfl)]
  exact if_neg hx

/-! ## Printed keys and accesses -/

/-- The text of a piece. -/
def textOf? : Piece → Option String
  | .text text => some text
  | _ => none

/-- Whether a member of an object literal stores a property. A value under `__proto__` becomes the
prototype. -/
def MemberValue.isProperty (key : String) : MemberValue → Bool
  | .value _ => key != "__proto__"
  | _ => true

/-- Whether a member of a class is a property. A method `constructor` is the constructor, and the
prototype of a class cannot be replaced. -/
def ClassMember.isProperty (key : String) (m : ClassMember) : Bool :=
  key != if m.isStatic then "prototype" else "constructor"

/-- Whether a member of a class is read as its constructor. -/
def ClassMember.isConstructor (m : ClassMember) : Bool :=
  !m.isStatic && (m.kind == .constructor || m.key == "constructor")

/-- The name of the property that a member of an object literal is printed as. -/
def MemberValue.printedKey? (a : Alphabet) (sep : Separator) (key : String) (v : MemberValue) :
    Option String :=
  (((v.pieces sep key).findSome? textOf?).bind (keyName? a)).filter (v.isProperty ·)

/-- The name of the property that a member of a class is printed as. -/
def ClassMember.printedKey? (a : Alphabet) (sep : Separator) (m : ClassMember) : Option String :=
  (((classMemberPieces sep [m]).findSome? textOf?).bind (keyName? a)).filter (m.isProperty ·)

/-- The name of the property that an access is printed with. -/
def printedProperty? (a : Alphabet) (sep : Separator) (object : Expr) (property : String) :
    Option String :=
  (((ExprForm.member object property).pieces sep none).getLast?.bind textOf?).bind (accessName? a)

/-- The printed key of a property denotes the property. -/
theorem printedKey?_member {k : String} (hk : isName k = true → a.IsName k) (sep : Separator)
    {v : MemberValue} (hv : v.isProperty k = true) : v.printedKey? a sep k = some k := by
  have hread : ∀ lead ∈ ["", "get ", "set ", "static ", "static get ", "static set "],
      ∀ tail ∈ ["", ": "],
      (∃ pieces, v.pieces sep k = .text (lead ++ propertyKey k ++ tail) :: pieces) →
      v.printedKey? a sep k = some k := by
    rintro lead hlead tail htail ⟨pieces, hpieces⟩
    have hname : ((v.pieces sep k).findSome? textOf?).bind (keyName? a) = some k := by
      rw [hpieces]
      exact keyName?_eq_some hk hlead htail
    rw [MemberValue.printedKey?, hname, Option.filter_some, hv]
    rfl
  cases v with
  | value e => exact hread "" (by decide) ": " (by decide) ⟨_, by simp [MemberValue.pieces]; rfl⟩
  | method func => exact hread "" (by decide) "" (by decide) ⟨_, by simp [MemberValue.pieces]; rfl⟩
  | getter func =>
    exact hread "get " (by decide) "" (by decide) ⟨_, by simp [MemberValue.pieces]; rfl⟩
  | setter func =>
    exact hread "set " (by decide) "" (by decide) ⟨_, by simp [MemberValue.pieces]; rfl⟩

/-- The printed key of a method denotes the method. -/
theorem printedKey?_classMember {m : ClassMember} (hk : isName m.key = true → a.IsName m.key)
    (hkind : m.kind ≠ .constructor) (hm : m.isProperty m.key = true) (sep : Separator) :
    m.printedKey? a sep = some m.key := by
  have hleads : ∀ lead ∈ ["", "get ", "set "], ∀ isStatic : Bool,
      (if isStatic then "static " else "") ++ lead ∈
        ["", "get ", "set ", "static ", "static get ", "static set "] := by decide
  have hread : ∀ lead ∈ ["", "get ", "set "],
      (∃ pieces, classMemberPieces sep [m] = .margin ::
        .text ((if m.isStatic then "static " else "") ++ (lead ++ propertyKey m.key)) :: pieces) →
      m.printedKey? a sep = some m.key := by
    rintro lead hlead ⟨pieces, hpieces⟩
    have hname :
        ((classMemberPieces sep [m]).findSome? textOf?).bind (keyName? a) = some m.key := by
      have hkey := @keyName?_eq_some a m.key _ "" hk (hleads lead hlead m.isStatic) (by decide)
      rw [String.append_empty, String.append_assoc] at hkey
      rw [hpieces]
      exact hkey
    rw [ClassMember.printedKey?, hname, Option.filter_some, hm]
    rfl
  obtain ⟨key, kind, isStatic, func⟩ := m
  cases kind with
  | constructor => exact absurd rfl hkind
  | method => exact hread "" (by decide) ⟨_, by simp [classMemberPieces, Layout.line]; rfl⟩
  | getter => exact hread "get " (by decide) ⟨_, by simp [classMemberPieces, Layout.line]; rfl⟩
  | setter => exact hread "set " (by decide) ⟨_, by simp [classMemberPieces, Layout.line]; rfl⟩

/-- The printed access denotes a property exactly if its key is a name. -/
theorem printedProperty?_eq_some {k : String} {sep : Separator} {object : Expr} :
    printedProperty? a sep object k = some k ↔ a.IsName k := by
  have hlast : ((ExprForm.member object k).pieces sep none).getLast? = some (.text ("." ++ k)) := by
    rw [ExprForm.pieces, List.getLast?_append]
    rfl
  rw [printedProperty?, hlast]
  exact accessName?_eq_some

/-! ## Objects by the names of their properties -/

/-- The properties of an object of its own. -/
abbrev Object (V : Type) : Type := String → Option V

namespace Object

variable {V : Type}

/-- Stores a value under a name. Under `__proto__` it becomes the prototype, or is ignored. -/
def put (o : Object V) (name : String) (v : V) : Object V :=
  if name = "__proto__" then o else Function.update o name (some v)

/-- The object with these fields. -/
def ofFields (fields : List String) (vs : List V) : Object V :=
  (fields.zip vs).foldl (fun o p => o.put p.1 p.2) fun _ => none

/-- A property that is put is found under its name. -/
theorem put_self (o : Object V) {name : String} (h : name ≠ "__proto__") (v : V) :
    o.put name v name = some v := by
  simp [put, h]

/-- A property that is put leaves the others as they are. -/
theorem put_other (o : Object V) {name other : String} (h : other ≠ name) (v : V) :
    o.put name v other = o other := by
  rw [put]
  split
  · rfl
  · exact Function.update_of_ne h _ _

/-- Storing under other names changes nothing. -/
theorem foldl_put_other {fields : List (String × V)} {name : String}
    (h : name ∉ fields.map (·.1)) (o : Object V) :
    fields.foldl (fun o p => o.put p.1 p.2) o name = o name := by
  induction fields generalizing o with
  | nil => rfl
  | cons p fields ih =>
    obtain ⟨hp, hrest⟩ := not_or.1 (mt List.mem_cons.2 h)
    rw [List.foldl_cons, ih hrest, put_other o hp]

/-- Each of the fields has its value, whatever else is stored. -/
theorem ofFields_get {fields : List String} {vs : List V} (hdistinct : fields.Nodup)
    (hproto : "__proto__" ∉ fields) {i : Nat} {f : String} {v : V} (hf : fields[i]? = some f)
    (hv : vs[i]? = some v) : ofFields fields vs f = some v := by
  have hput : ∀ (o : Object V), (fields.zip vs).foldl (fun o p => o.put p.1 p.2) o f = some v := by
    induction fields generalizing vs i with
    | nil => cases hf
    | cons g fields ih =>
      obtain ⟨hg, hdistinct⟩ := List.nodup_cons.1 hdistinct
      obtain ⟨hne, hproto⟩ := not_or.1 (mt List.mem_cons.2 hproto)
      cases vs with
      | nil => cases hv
      | cons w vs =>
        intro o
        rw [List.zip_cons_cons, List.foldl_cons]
        cases i with
        | zero =>
          obtain rfl := Option.some.inj hf
          obtain rfl := Option.some.inj hv
          have hlater : g ∉ (fields.zip vs).map (·.1) := fun hmem => by
            obtain ⟨p, hp, rfl⟩ := List.mem_map.1 hmem
            exact hg (List.of_mem_zip hp).1
          rw [foldl_put_other hlater, put_self o (Ne.symm hne)]
        | succ i => exact ih hdistinct hproto hf hv _
  exact hput _

/-- As many values as fields have one for each. -/
theorem exists_value {fields : List String} {vs : List V} (hlen : vs.length = fields.length)
    {i : Nat} {f : String} (hf : fields[i]? = some f) : ∃ v, vs[i]? = some v := by
  obtain ⟨hi, -⟩ := List.getElem?_eq_some_iff.1 hf
  exact ⟨_, List.getElem?_eq_getElem (hlen ▸ hi)⟩

/-- An object of fields has no other properties. -/
theorem ofFields_other {fields : List String} {vs : List V} {name : String} (h : name ∉ fields) :
    ofFields fields vs name = none :=
  foldl_put_other (fun hmem => by
    obtain ⟨p, hp, rfl⟩ := List.mem_map.1 hmem
    exact h (List.of_mem_zip hp).1) _

/-- Storing under a field replaces its value and no other. -/
theorem ofFields_put {fields : List String} {vs : List V} (hdistinct : fields.Nodup)
    (hproto : "__proto__" ∉ fields) (hlen : vs.length = fields.length) {i : Nat} {f : String}
    (hf : fields[i]? = some f) (v : V) :
    (ofFields fields vs).put f v = ofFields fields (vs.set i v) := by
  have hmem : f ∈ fields := List.mem_of_getElem? hf
  funext g
  by_cases hg : g = f
  · subst hg
    obtain ⟨_, hold⟩ := exists_value hlen hf
    obtain ⟨hi, -⟩ := List.getElem?_eq_some_iff.1 hold
    rw [put_self _ (fun heq => hproto (heq ▸ hmem)),
      ofFields_get hdistinct hproto hf (List.getElem?_set_self hi)]
  · rw [put_other _ hg]
    by_cases hfield : g ∈ fields
    · obtain ⟨j, hj⟩ := List.mem_iff_getElem?.1 hfield
      have hne : i ≠ j := fun heq => hg (Option.some.inj (hj.symm.trans (heq ▸ hf)))
      obtain ⟨w, hw⟩ := exists_value hlen hj
      rw [ofFields_get hdistinct hproto hj hw,
        ofFields_get hdistinct hproto hj ((List.getElem?_set_ne hne).trans hw)]
    · rw [ofFields_other hfield, ofFields_other hfield]

end Object

section Evaluation

variable (a : Alphabet) (sep : Separator) (classes : List ClassDecl) {V : Type} (value : Expr → V)

/-- Stores a property of an object literal. Methods and accessors are left out. -/
def ObjectMember.define (o : Object V) : ObjectMember → Option (Object V)
  | ⟨key, .value e⟩ =>
    ((MemberValue.value e).printedKey? a sep key).map fun k => o.put k (value e)
  | _ => none

/-- The effect of `this.k = x` on the object that is being made. -/
def Stmt.storeField (scope : List (String × V)) (o : Object V) : Stmt → Option (Object V)
  | ⟨_, .expr ⟨_, .binary .assignment ⟨_, .member ⟨loc, .this⟩ property⟩ ⟨_, .ident x⟩⟩⟩ => do
    let k ← printedProperty? a sep ⟨loc, .this⟩ property
    let x ← variableName? a x
    let v ← scope.lookup x
    return o.put k v
  | _ => none

/-- The names of parameters. In a class they differ. -/
def paramNames? (params : List Param) : Option (List String) := do
  let names ← params.mapM fun p => if p.isRest then none else variableName? a p.name
  if names.Nodup then some names else none

/-- The object that a constructor makes which only stores its parameters. -/
def Func.construct? : Func → List V → Option (Object V)
  | ⟨_, _, params, .block stmts⟩, vs => do
    let names ← paramNames? a params
    stmts.foldlM (Stmt.storeField a sep (names.zip vs)) fun _ => none
  | _, _ => none

/-- The only constructor of the class with that name, which extends no other class. -/
def constructorOf? (name : String) : Option Func := do
  let c ← classes.find? fun c => c.name == name && c.base.isNone
  match c.members.filter (·.isConstructor) with
  | [m] => some m.func
  | _ => none

/-- The object that an object literal or a construction makes. The values are those that its parts
evaluate to. -/
def Expr.object? : Expr → Option (Object V)
  | ⟨_, .object members⟩ => members.foldlM (ObjectMember.define a sep value) fun _ => none
  | ⟨_, .construct ⟨_, .ident name⟩ args⟩ => do
    let func ← constructorOf? classes name
    func.construct? a sep (args.map value)
  | _ => none

/-- What an access reads from its object. -/
def Expr.read? (object : Expr → Option (Object V)) : Expr → Option V
  | ⟨_, .member obj property⟩ => do
    let o ← object obj
    let k ← printedProperty? a sep obj property
    o k
  | _ => none

/-- The object of an assignment after it. -/
def Expr.written? (object : Expr → Option (Object V)) : Expr → Option (Object V)
  | ⟨_, .binary .assignment ⟨_, .member obj property⟩ e⟩ => do
    let o ← object obj
    let k ← printedProperty? a sep obj property
    return o.put k (value e)
  | _ => none

end Evaluation

/-- Field names that denote properties where they are printed as they are. -/
structure PlainFields (a : Alphabet) (fields : List String) : Prop where
  name : ∀ f ∈ fields, a.IsName f
  distinct : fields.Nodup
  noPrototype : "__proto__" ∉ fields

variable {sep : Separator} {V : Type} {value : Expr → V} {fields : List String}
  {args : List Expr} {classes : List ClassDecl}

/-- An object literal makes the object with its fields, since its keys are quoted where needed. -/
theorem object?_literal (hfields : ∀ f ∈ fields, isName f = true → a.IsName f)
    (hproto : "__proto__" ∉ fields) (loc : Option Ir.Location) :
    Expr.object? a sep classes value
        ⟨loc, .object ((fields.zip args).map fun p => ⟨p.1, .value p.2⟩)⟩ =
      some (.ofFields fields (args.map value)) := by
  have hfold : ∀ o : Object V,
      ((fields.zip args).map fun p => ⟨p.1, .value p.2⟩).foldlM
        (ObjectMember.define a sep value) o =
        some (((fields.zip (args.map value))).foldl (fun o p => o.put p.1 p.2) o) := by
    induction fields generalizing args with
    | nil => exact fun _ => rfl
    | cons f fields ih =>
      cases args with
      | nil => exact fun _ => rfl
      | cons arg args =>
        intro o
        obtain ⟨hf, hfields⟩ := List.forall_mem_cons.1 hfields
        obtain ⟨hne, hproto⟩ := not_or.1 (mt List.mem_cons.2 hproto)
        have hproperty : (MemberValue.value arg).isProperty f = true := bne_iff_ne.2 (Ne.symm hne)
        have hdefine : ObjectMember.define a sep value o ⟨f, .value arg⟩ =
            some (o.put f (value arg)) := by
          rw [ObjectMember.define, printedKey?_member hf sep hproperty]
          rfl
        rw [List.zip_cons_cons, List.map_cons, List.foldlM_cons, hdefine]
        exact ih hfields hproto _
  exact hfold _

/-- In a list of distinct names, each is found with its own value. -/
theorem lookup_of_mem {pairs : List (String × V)} (hdistinct : (pairs.map (·.1)).Nodup)
    {p : String × V} (hp : p ∈ pairs) : pairs.lookup p.1 = some p.2 := by
  induction pairs with
  | nil => cases hp
  | cons q pairs ih =>
    obtain ⟨hq, hdistinct⟩ := List.nodup_cons.1 hdistinct
    rcases List.mem_cons.1 hp with rfl | hp
    · exact List.lookup_cons_self
    · have hne : p.1 ≠ q.1 := fun heq => hq (List.mem_map.2 ⟨p, hp, heq⟩)
      rw [List.lookup_cons, beq_eq_false_iff_ne.2 hne]
      exact ih hdistinct hp

/-- Fields that are no words of the language can be parameters. -/
theorem paramNames?_fields (hfields : PlainFields a fields)
    (hwords : ∀ f ∈ fields, f ∉ strictWords) :
    paramNames? a (fields.map (⟨·, false⟩)) = some fields := by
  have hnames : ∀ {names : List String}, (∀ f ∈ names, a.IsName f ∧ f ∉ strictWords) →
      (names.map (⟨·, false⟩ : String → Param)).mapM
        (fun p => if p.isRest then none else variableName? a p.name) = some names := by
    intro names
    induction names with
    | nil => exact fun _ => rfl
    | cons f names ih =>
      intro h
      obtain ⟨⟨hname, hword⟩, h⟩ := List.forall_mem_cons.1 h
      rw [List.map_cons, List.mapM_cons, ih h]
      simp [variableName?_eq_some hname hword]
  rw [paramNames?, hnames fun f hf => ⟨hfields.name f hf, hwords f hf⟩]
  exact if_pos hfields.distinct

/-- The statement for a field stores its parameter under it. -/
theorem storeField_fieldAssignment {scope : List (String × V)} {f : String} {v : V}
    (hname : a.IsName f) (hword : f ∉ strictWords) (hv : scope.lookup f = some v) (o : Object V) :
    Stmt.storeField a sep scope o (fieldAssignment f) = some (o.put f v) := by
  show (do
    let k ← printedProperty? a sep (.of .this) f
    let x ← variableName? a f
    let v ← scope.lookup x
    return o.put k v) = _
  rw [printedProperty?_eq_some.2 hname, variableName?_eq_some hname hword]
  simp [hv]

/-- The constructor of a record makes the object with the fields of the record. -/
theorem construct?_fieldConstructor {vs : List V} (hfields : PlainFields a fields)
    (hwords : ∀ f ∈ fields, f ∉ strictWords) (hlen : vs.length = fields.length) :
    (fieldConstructor fields).func.construct? a sep vs = some (.ofFields fields vs) := by
  have hkeys : (fields.zip vs).map (·.1) = fields := List.map_fst_zip (Nat.le_of_eq hlen.symm)
  have hfold : ∀ {pairs : List (String × V)}, (∀ p ∈ pairs, p ∈ fields.zip vs) → ∀ o : Object V,
      (pairs.map fun p => fieldAssignment p.1).foldlM (Stmt.storeField a sep (fields.zip vs)) o =
        some (pairs.foldl (fun o p => o.put p.1 p.2) o) := by
    intro pairs
    induction pairs with
    | nil => exact fun _ _ => rfl
    | cons p pairs ih =>
      intro h o
      obtain ⟨hp, h⟩ := List.forall_mem_cons.1 h
      have hmem : p.1 ∈ fields := (List.of_mem_zip hp).1
      rw [List.map_cons, List.foldlM_cons, storeField_fieldAssignment (hfields.name _ hmem)
        (hwords _ hmem) (lookup_of_mem (hkeys.symm ▸ hfields.distinct) hp)]
      exact ih h _
  have hstmts : fields.map fieldAssignment =
      (fields.zip vs).map fun p => fieldAssignment p.1 := by
    conv_lhs => rw [← hkeys, List.map_map]
    rfl
  show (do
    let names ← paramNames? a (fields.map (⟨·, false⟩))
    (fields.map fieldAssignment).foldlM (Stmt.storeField a sep (names.zip vs)) fun _ => none) = _
  rw [paramNames?_fields hfields hwords, hstmts]
  exact hfold (fun _ => id) _

/-! ## Lowered records -/

section Lowered

variable {n : Nat} {ctx : Context} {e : Expr} {values : List Ir.Expr} {s t : LowerState}

/-- Reading a field is lowered to an access to the object's code. -/
theorem LowersTo.fieldGet {obj : Ir.Expr} {f : String} {ty : Ir.Ty} {loc : Option Ir.Location}
    (h : LowersTo n ctx (.get obj (.field f) ty loc) e) :
    ∃ m objCode, LowersTo m ctx obj objCode ∧ e.form = .member objCode f := by
  obtain ⟨m, s, t, code, hcore, hform⟩ := h.core rfl rfl
  simp only [Parts.exprCore, bind_eq_ok, pure_eq_ok] at hcore
  obtain ⟨objCode, u, hobj, rfl, -⟩ := hcore
  exact ⟨m, objCode, ⟨s, u, hobj⟩, hform⟩

/-- Writing a field is lowered to an assignment to an access. -/
theorem LowersTo.fieldSet {obj new : Ir.Expr} {f : String} {loc : Option Ir.Location}
    (h : LowersTo n ctx (.set obj (some f) new loc) e) :
    ∃ m objCode newCode, LowersTo m ctx obj objCode ∧ LowersTo m ctx new newCode ∧
      e.form = .binary .assignment (.member objCode f) newCode := by
  obtain ⟨m, s, t, code, hcore, hform⟩ := h.core rfl rfl
  simp only [Parts.exprCore, Parts.place, bind_eq_ok, pure_eq_ok] at hcore
  obtain ⟨_, _, ⟨objCode, u, hobj, rfl, rfl⟩, newCode, v, hnew, rfl, -⟩ := hcore
  exact ⟨m, objCode, newCode, ⟨s, u, hobj⟩, ⟨u, v, hnew⟩, hform⟩

/-- Expressions are lowered one by one. -/
theorem exprs_lowersTo (h : (rules n).exprs ctx values s = (.ok args, t)) :
    List.Forall₂ (LowersTo n ctx) values args := by
  induction values generalizing s t args with
  | nil =>
    obtain ⟨rfl, -⟩ := pure_eq_ok.1 h
    exact .nil
  | cons node values ih =>
    simp only [Parts.exprs, bind_eq_ok, pure_eq_ok] at h
    obtain ⟨first, u, hfirst, rest, _, hrest, rfl, -⟩ := h
    exact .cons ⟨s, u, hfirst⟩ (ih hrest)

/-- A property list is lowered to its keys with the values. -/
theorem properties_lowersTo {members : List ObjectMember} (hlen : values.length = fields.length)
    (h : (rules n).properties ctx fields values s = (.ok members, t)) :
    ∃ args, List.Forall₂ (LowersTo n ctx) values args ∧
      members = (fields.zip args).map fun p => ⟨p.1, .value p.2⟩ := by
  induction fields generalizing values s t members with
  | nil =>
    obtain rfl := List.eq_nil_of_length_eq_zero hlen
    obtain ⟨rfl, -⟩ := pure_eq_ok.1 h
    exact ⟨[], .nil, rfl⟩
  | cons f fields ih =>
    cases values with
    | nil => cases hlen
    | cons node values =>
      simp only [Parts.properties, bind_eq_ok, pure_eq_ok] at h
      obtain ⟨first, u, hfirst, rest, _, hrest, rfl, -⟩ := h
      obtain ⟨args, hargs, rfl⟩ := ih (Nat.succ.inj hlen) hrest
      exact ⟨first :: args, .cons ⟨s, u, hfirst⟩ hargs, rfl⟩

/-- The class that a statement declares. -/
def Stmt.class? : Stmt → Option ClassDecl
  | ⟨_, .classDecl decl⟩ | ⟨_, .exported ⟨_, .classDecl decl⟩⟩ => some decl
  | _ => none

/-- What makes records with these fields: an object literal, or the class that the entity of the
record is lowered to, whose fields can be parameters. -/
inductive MakesRecord (settings : Settings) (classes : List ClassDecl) :
    Ir.Aggregate → List String → Prop
  | anonymous (fields : List String) : MakesRecord settings classes (.anonymous fields) fields
  | record {entity : Entity} {fields : List Field} {decl : Ir.ClassDecl} {ctx : Context}
    {s t : LowerState} {stmt : Stmt} {cls : ClassDecl} (generics : List Ir.Ty)
    (hentity : settings.entity? decl.entity = some entity) (hkind : entity.kind = .record fields)
    (hsettings : ctx.file.settings = settings) (hclass : lowerClass ctx decl s = (.ok stmt, t))
    (hstmt : stmt.class? = some cls)
    (hfind : classes.find? (fun c => c.name == entity.displayName && c.base.isNone) = some cls)
    (hmethods : ∀ m ∈ decl.members, m.name ≠ "constructor")
    (hwords : ∀ f ∈ fields, f.name ∉ strictWords) :
    MakesRecord settings classes (.record decl.entity generics) (fields.map (·.name))

/-- An exported class is the class. -/
theorem class?_exportIf (isPublic : Bool) (decl : ClassDecl) :
    (Stmt.exportIf isPublic (.of (.classDecl decl))).class? = some decl := by
  cases isPublic <;> rfl

/-- Methods of another name are not lowered to constructors. -/
theorem lowerMethods_isConstructor {ms : List Ir.Member} {methods : List ClassMember}
    (hmethods : ∀ m ∈ ms, m.name ≠ "constructor") (h : lowerMethods ctx ms s = (.ok methods, t)) :
    ∀ m ∈ methods, m.isConstructor = false := by
  induction ms generalizing s t methods with
  | nil =>
    obtain ⟨rfl, -⟩ := pure_eq_ok.1 h
    exact nofun
  | cons m ms ih =>
    obtain ⟨hm, hmethods⟩ := List.forall_mem_cons.1 hmethods
    simp only [lowerMethods, bind_eq_ok, pure_eq_ok] at h
    obtain ⟨⟨params, body⟩, u, -, rest, v, hrest, rfl, -⟩ := h
    refine List.forall_mem_cons.2 ⟨?_, ih hmethods hrest⟩
    simp [ClassMember.isConstructor, hm]

/-- The class of a record has one constructor, the one for its fields. -/
theorem lowerClass_record {decl : Ir.ClassDecl} {stmt : Stmt} {cls : ClassDecl} {entity : Entity}
    {fields : List Field} (h : lowerClass ctx decl s = (.ok stmt, t))
    (hentity : ctx.file.settings.entity? decl.entity = some entity)
    (hkind : entity.kind = .record fields) (hstmt : stmt.class? = some cls)
    (hmethods : ∀ m ∈ decl.members, m.name ≠ "constructor") :
    cls.members.filter (·.isConstructor) = [fieldConstructor (fields.map (·.name))] := by
  simp only [lowerClass, lowerConstructor, bind_eq_ok, pure_eq_ok, ofOption_eq_ok, hentity] at h
  obtain ⟨info, u, ⟨hinfo, rfl⟩, constructor, v, hconstructor, methods, w, hlower, rfl, -⟩ := h
  obtain rfl := Option.some.inj hinfo
  rw [class?_exportIf] at hstmt
  obtain rfl := Option.some.inj hstmt
  rw [hkind] at hconstructor
  obtain ⟨rfl, -⟩ := pure_eq_ok.1 hconstructor
  have hnone : methods.filter (·.isConstructor) = [] :=
    List.filter_eq_nil_iff.2 fun m hm => by simp [lowerMethods_isConstructor hmethods hlower m hm]
  show List.filter _ (fieldConstructor _ :: methods) = _
  rw [List.filter_cons_of_pos rfl, hnone]

/-- A lowered record is the object with its fields. -/
theorem LowersTo.record {kind : Ir.Aggregate} {loc : Option Ir.Location}
    (hmakes : MakesRecord ctx.file.settings classes kind fields) (hfields : PlainFields a fields)
    (hlen : values.length = fields.length) (h : LowersTo n ctx (.aggregate kind values loc) e) :
    ∃ m args, List.Forall₂ (LowersTo m ctx) values args ∧ ∀ {V : Type} (value : Expr → V),
      e.object? a sep classes value = some (.ofFields fields (args.map value)) := by
  obtain ⟨m, s, t, code, hcore, hform⟩ := h.core rfl rfl
  obtain ⟨loc', form⟩ := e
  obtain rfl : form = code.form := hform
  cases hmakes with
  | anonymous fields =>
    simp only [Parts.exprCore, Parts.aggregate, bind_eq_ok, pure_eq_ok] at hcore
    obtain ⟨members, u, hmembers, rfl, -⟩ := hcore
    obtain ⟨args, hargs, rfl⟩ := properties_lowersTo hlen hmembers
    exact ⟨m, args, hargs, fun value =>
      object?_literal (fun f hf _ => hfields.name f hf) hfields.noPrototype loc'⟩
  | record generics hentity hkind hsettings hclass hstmt hfind hmethods hwords =>
    simp only [Parts.exprCore, Parts.aggregate, bind_eq_ok, pure_eq_ok, className, ofOption_eq_ok,
      hentity, Option.map_some] at hcore
    obtain ⟨name, u, ⟨hname, rfl⟩, args, v, hargs, rfl, -⟩ := hcore
    obtain rfl := Option.some.inj hname
    have hargs := exprs_lowersTo hargs
    refine ⟨m, args, hargs, fun value => ?_⟩
    have hmember := lowerClass_record hclass (hsettings ▸ hentity) hkind hstmt hmethods
    have hlength : (args.map value).length = _ :=
      (List.length_map value).trans (hargs.length_eq.symm.trans hlen)
    have hmake : (fieldConstructor _).func.construct? a sep (args.map value) = _ :=
      construct?_fieldConstructor hfields (List.forall_mem_map.2 hwords) hlength
    show (do
      let func ← constructorOf? classes _
      func.construct? a sep (args.map value)) = _
    rw [← hmake, constructorOf?, hfind]
    simp [hmember]

/-- A lowered access to a field with a name reads it, whatever the object is. -/
theorem LowersTo.read {obj : Ir.Expr} {f : String} {ty : Ir.Ty} {loc : Option Ir.Location}
    (hf : a.IsName f) (h : LowersTo n ctx (.get obj (.field f) ty loc) e) :
    ∃ m objCode, LowersTo m ctx obj objCode ∧
      ∀ {V : Type} (object : Expr → Option (Object V)),
        e.read? a sep object = (object objCode).bind (· f) := by
  obtain ⟨m, objCode, hobj, hform⟩ := h.fieldGet
  obtain ⟨loc', form⟩ := e
  obtain rfl : form = .member objCode f := hform
  refine ⟨m, objCode, hobj, fun object => ?_⟩
  show (do
    let o ← object objCode
    let k ← printedProperty? a sep objCode f
    o k) = _
  rw [printedProperty?_eq_some.2 hf]
  rfl

/-- A lowered assignment to a field with a name stores the value under it. -/
theorem LowersTo.written {obj new : Ir.Expr} {f : String} {loc : Option Ir.Location}
    (hf : a.IsName f) (h : LowersTo n ctx (.set obj (some f) new loc) e) :
    ∃ m objCode newCode, LowersTo m ctx obj objCode ∧ LowersTo m ctx new newCode ∧
      ∀ {V : Type} (value : Expr → V) (object : Expr → Option (Object V)),
        e.written? a sep value object = (object objCode).map (·.put f (value newCode)) := by
  obtain ⟨m, objCode, newCode, hobj, hnew, hform⟩ := h.fieldSet
  obtain ⟨loc', form⟩ := e
  obtain rfl : form = .binary .assignment (.member objCode f) newCode := hform
  refine ⟨m, objCode, newCode, hobj, hnew, fun value object => ?_⟩
  show (do
    let o ← object objCode
    let k ← printedProperty? a sep objCode f
    return o.put k (value newCode)) = _
  rw [printedProperty?_eq_some.2 hf]
  cases object objCode <;> rfl

end Lowered

/-- Every key is printed as the property that it names, and an access exactly if it is a name. Of
records whose fields are names, a lowered construction makes the object with these fields, and an
access to a field of such an object reads or replaces the value of that field. -/
theorem fields_agree (a : Alphabet) (sep : Separator) :
    (∀ k : String, (isName k = true → a.IsName k) →
      (∀ v : MemberValue, v.isProperty k = true → v.printedKey? a sep k = some k) ∧
      (∀ m : ClassMember, m.key = k → m.kind ≠ .constructor → m.isProperty k = true →
        m.printedKey? a sep = some k) ∧
      ∀ obj, printedProperty? a sep obj k = some k ↔ a.IsName k) ∧
    ∀ fields : List String, PlainFields a fields →
      (∀ {n ctx classes kind values loc e}, MakesRecord ctx.file.settings classes kind fields →
        values.length = fields.length → LowersTo n ctx (.aggregate kind values loc) e →
        ∃ m args, List.Forall₂ (LowersTo m ctx) values args ∧ ∀ {V : Type} (value : Expr → V),
          e.object? a sep classes value = some (.ofFields fields (args.map value))) ∧
      ∀ {i f}, fields[i]? = some f →
        (∀ {n ctx obj ty loc e}, LowersTo n ctx (.get obj (.field f) ty loc) e →
          ∃ m objCode, LowersTo m ctx obj objCode ∧
            ∀ {V : Type} (object : Expr → Option (Object V)) (vs : List V),
              vs.length = fields.length → object objCode = some (.ofFields fields vs) →
              e.read? a sep object = vs[i]?) ∧
        ∀ {n ctx obj new loc e}, LowersTo n ctx (.set obj (some f) new loc) e →
          ∃ m objCode newCode, LowersTo m ctx obj objCode ∧ LowersTo m ctx new newCode ∧
            ∀ {V : Type} (value : Expr → V) (object : Expr → Option (Object V)) (vs : List V),
              vs.length = fields.length → object objCode = some (.ofFields fields vs) →
              e.written? a sep value object =
                some (.ofFields fields (vs.set i (value newCode))) := by
  refine ⟨fun k hk => ⟨fun v => printedKey?_member hk sep, ?_, fun obj => printedProperty?_eq_some⟩,
    fun fields hfields => ⟨fun hmakes hlen => LowersTo.record hmakes hfields hlen, ?_⟩⟩
  · rintro m rfl hkind hm
    exact printedKey?_classMember hk hkind hm sep
  intro i f hf
  have hname : a.IsName f := hfields.name f (List.mem_of_getElem? hf)
  constructor
  · intro n ctx obj ty loc e h
    obtain ⟨m, objCode, hobj, hread⟩ := h.read hname
    refine ⟨m, objCode, hobj, fun object vs hlen hobject => ?_⟩
    obtain ⟨_, hv⟩ := Object.exists_value hlen hf
    rw [hread, hobject, Option.bind_some, hv]
    exact Object.ofFields_get hfields.distinct hfields.noPrototype hf hv
  · intro n ctx obj new loc e h
    obtain ⟨m, objCode, newCode, hobj, hnew, hwritten⟩ := h.written hname
    refine ⟨m, objCode, newCode, hobj, hnew, fun value object vs hlen hobject => ?_⟩
    rw [hwritten, hobject, Option.map_some,
      Object.ofFields_put hfields.distinct hfields.noPrototype hlen hf]

/-! ## Reading the fields of a class and of an anonymous record -/

/-- A file of a project that knows the record `Point` with two fields. -/
def pointFile : SourceFile :=
  ⟨⟨.default,
    ⟨[⟨"Main.Point", "Point", .record [⟨"x", .boolean, false⟩, ⟨"y", .boolean, true⟩], true⟩],
      [], [], []⟩, []⟩, "main"⟩

/-- The class that `Point` is lowered to. -/
def pointClass : ClassDecl := ⟨"Point", none, [fieldConstructor ["x", "y"]]⟩

/-- `Point(a, b)` -/
def newPoint : Ir.Expr :=
  .aggregate (.record "Main.Point" []) [.ident (flag "a"), .ident (flag "b")] none

/-- `Point(a, b).y` -/
def pointField : Ir.Expr := .get newPoint (.field "y") .boolean none

/-- The second field of a point that has just been made is the second argument. -/
theorem pointField_isRead :
    (ClassMember.mk "my-field" .method false (.method [] [])).printedKey? .ascii .semicolons =
      some "my-field" ∧
    ∃ e, LowersTo 3 (.ofFile pointFile) pointField e ∧ e.print .default = "new Point(a, b).y" ∧
      ∃ n args, List.Forall₂ (LowersTo n (.ofFile pointFile))
          [.ident (flag "a"), .ident (flag "b")] args ∧
        ∀ value : Expr → Nat,
          e.read? .ascii .semicolons (Expr.object? .ascii .semicolons [pointClass] value) =
            (args.map value)[1]? := by
  obtain ⟨hkeys, hrecords⟩ := fields_agree .ascii .semicolons
  have hquoted : isName "my-field" = true → Alphabet.ascii.IsName "my-field" :=
    fun h => absurd h (by decide +kernel)
  have hmakes : MakesRecord pointFile.settings [pointClass]
      (.record "Main.Point" []) ["x", "y"] :=
    @MakesRecord.record _ _ _ _ ⟨"Point", "Main.Point", none, [], []⟩ (.ofFile pointFile)
      (.start .empty [] []) _ _ pointClass [] rfl rfl rfl rfl rfl rfl nofun (by decide)
  have hfields : PlainFields .ascii ["x", "y"] := by
    refine ⟨fun f hf => ?_, by decide, by decide⟩
    rcases List.mem_pair.1 hf with rfl | rfl <;> exact isName_word (by decide)
  have hget : LowersTo 3 (.ofFile pointFile) pointField
      (.of (.member (.of (.construct (.ident "Point") [.ident "a", .ident "b"])) "y")) :=
    ⟨.start .empty [] [], _, rfl⟩
  refine ⟨(hkeys "my-field" hquoted).2.1 _ rfl nofun (by decide), _, hget, by decide +kernel, ?_⟩
  obtain ⟨hmade, haccess⟩ := hrecords _ hfields
  obtain ⟨m, objCode, hobj, hread⟩ := (@haccess 1 "y" rfl).1 hget
  obtain ⟨n, args, hargs, hobject⟩ := hmade hmakes rfl hobj
  have hlen : args.length = 2 := hargs.length_eq.symm
  exact ⟨n, args, hargs, fun value =>
    hread _ (args.map value) ((List.length_map value).trans hlen) (hobject value)⟩

/-- A record with the field `my-field`, and a read of this field. -/
def dashedField : Ir.Expr :=
  .get (.aggregate (.anonymous ["my-field"]) [.ident (flag "v")] none) (.field "my-field") .boolean
    none

/-- In the code for a read of the field `my-field` the key is quoted and denotes the field. The
access is a difference, and denotes no property. -/
theorem dashedField_isNoAccess :
    let obj : Expr := .of (.object [⟨"my-field", .value (.ident "v")⟩])
    let e : Expr := .of (.member obj "my-field")
    LowersTo 3 (.ofFile bareFile) dashedField e ∧
      e.print .default = "\x7b\"my-field\": v\x7d.my-field" ∧
      (MemberValue.value (.ident "v")).printedKey? .ascii .semicolons "my-field" =
        some "my-field" ∧
      printedProperty? .ascii .semicolons obj "my-field" = none ∧
      ∀ value : Expr → Nat,
        (∃ o, obj.object? .ascii .semicolons [] value = some o ∧
          o "my-field" = some (value (.ident "v"))) ∧
        e.read? .ascii .semicolons (Expr.object? .ascii .semicolons [] value) = none := by
  intro obj e
  have hquoted : isName "my-field" = true → Alphabet.ascii.IsName "my-field" :=
    fun h => absurd h (by decide +kernel)
  have hproperty : printedProperty? .ascii .semicolons obj "my-field" = none := by
    decide +kernel
  refine ⟨⟨.start .empty [] [], _, rfl⟩, by decide +kernel,
    printedKey?_member hquoted _ (by decide), hproperty, fun value => ?_⟩
  have hobj : obj.object? .ascii .semicolons [] value =
      some (.ofFields ["my-field"] [value (.ident "v")]) :=
    @object?_literal .ascii .semicolons _ value ["my-field"] [.ident "v"] []
      (List.forall_mem_singleton.2 hquoted) (by decide) none
  constructor
  · exact ⟨_, hobj, @Object.ofFields_get _ ["my-field"] _ (by decide) (by decide) 0 _ _ rfl rfl⟩
  · show (do
      let o ← obj.object? .ascii .semicolons [] value
      let k ← printedProperty? .ascii .semicolons obj "my-field"
      o k) = _
    rw [hobj, hproperty]
    rfl

end TypedLowering.JavaScript
