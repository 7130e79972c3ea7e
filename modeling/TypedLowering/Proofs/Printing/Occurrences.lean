import TypedLowering.Printing.Code

/-!
# What is printed inside of what

The expressions that are printed with a program (`Program.printedExprs`): dead statements are left
out, and so is what a function that only forwards would have said. The pieces of each of them are
found in the pieces of the program, as they are (`Program.parts_of_pieces`).
-/

namespace TypedLowering

mutual

/-- The number of marks in a piece. -/
def Piece.marks : Piece → Nat
  | .mark _ => 1
  | .text _ | .indent | .dedent | .margin => 0
  | .guarded stmt => marksOf stmt

/-- The number of marks in pieces. -/
def marksOf : List Piece → Nat
  | [] => 0
  | x :: xs => x.marks + marksOf xs

end

/-- The pieces `inner` are a part of the pieces, behind so many marks. -/
inductive Inside (inner : List Piece) : Nat → List Piece → Prop
  | here (before after : List Piece) : Inside inner (marksOf before) (before ++ (inner ++ after))
  | guarded (before after : List Piece) {stmt : List Piece} {k : Nat} (h : Inside inner k stmt) :
    Inside inner (marksOf before + k) (before ++ .guarded stmt :: after)

/-- The pieces `inner` are a part of the pieces. -/
def PartOf (inner pieces : List Piece) : Prop := ∃ k, Inside inner k pieces

namespace PartOf

variable {inner xs ys : List Piece}

/-- Pieces are part of themselves. -/
theorem refl (xs : List Piece) : PartOf xs xs :=
  ⟨_, by simpa using @Inside.here xs [] []⟩

/-- A part of the first pieces is a part of both. -/
theorem left (h : PartOf inner xs) : PartOf inner (xs ++ ys) := by
  obtain ⟨k, h⟩ := h
  cases h with
  | here before after => exact ⟨_, by simpa using Inside.here before (after ++ ys)⟩
  | guarded before after h => exact ⟨_, by simpa using Inside.guarded before (after ++ ys) h⟩

/-- A part of the last pieces is a part of both. -/
theorem right (h : PartOf inner ys) : PartOf inner (xs ++ ys) := by
  obtain ⟨k, h⟩ := h
  cases h with
  | here before after => exact ⟨_, by simpa using Inside.here (xs ++ before) after⟩
  | guarded before after h => exact ⟨_, by simpa using Inside.guarded (xs ++ before) after h⟩

/-- A part stays one behind another piece. -/
theorem cons {x : Piece} (h : PartOf inner xs) : PartOf inner (x :: xs) :=
  @right inner [x] xs h

/-- A part of guarded pieces is a part of the guard. -/
theorem ofGuarded (h : PartOf inner xs) : PartOf inner [.guarded xs] := by
  obtain ⟨k, h⟩ := h
  exact ⟨_, Inside.guarded [] [] h⟩

/-- Parentheses keep parts. -/
theorem wrap (isWrapped : Bool) (h : PartOf inner xs) :
    PartOf inner (Layout.wrap isWrapped xs) := by
  cases isWrapped with
  | false => exact h
  | true => exact h.cons.left

/-- A line end keeps parts. -/
theorem line (h : PartOf inner xs) : PartOf inner (Layout.line xs) := h.cons.left

/-- Braces keep parts. -/
theorem braces (h : PartOf inner xs) : PartOf inner (Layout.braces xs) := h.cons.cons.cons.left

/-- A part of an item is a part of the list. -/
theorem commas {items : List (List Piece)} (hx : xs ∈ items) (h : PartOf inner xs) :
    PartOf inner (Layout.commas items) := by
  induction items with
  | nil => cases hx
  | cons item items ih =>
    cases items with
    | nil => exact List.mem_singleton.1 hx ▸ h
    | cons next rest =>
      rcases List.mem_cons.1 hx with rfl | hx
      · exact h.left
      · exact (ih hx).cons.right

/-- A part of a statement is a part of its line. -/
theorem stmtLine (sep : Separator) (follows : Bool) (h : PartOf inner xs) :
    PartOf inner (Layout.stmtLine sep follows xs) := by
  rw [Layout.stmtLine]
  split
  · exact h.ofGuarded.line
  · exact h.line

/-- A part of a statement is a part of the lines of all. -/
theorem stmtLines {sep : Separator} {follows : Bool} {stmts : List (List Piece)} (hx : xs ∈ stmts)
    (h : PartOf inner xs) : PartOf inner (Layout.stmtLines sep follows stmts) := by
  induction stmts generalizing follows with
  | nil => cases hx
  | cons stmt stmts ih =>
    rcases List.mem_cons.1 hx with rfl | hx
    · exact (h.stmtLine sep follows).left
    · exact (ih hx).right

end PartOf

namespace JavaScript

open Layout (mark commas)

/-- The expressions that are printed with foreign code, from those of the arguments. -/
def segmentsPrinted (args : List (List Expr)) : List Template.Segment → List Expr
  | [] => []
  | .text _ :: rest => segmentsPrinted args rest
  | .arg i _ :: rest => args.getD i [] ++ segmentsPrinted args rest

mutual

/-- The expressions that are printed with an expression, itself first. -/
def Expr.printed : Expr → List Expr
  | ⟨loc, form⟩ => ⟨loc, form⟩ :: form.printed

/-- The expressions that are printed in the form of an expression. -/
def ExprForm.printed : ExprForm → List Expr
  | .ident _ | .this | .literal _ => []
  | .array items | .sequence items => itemsPrinted items
  | .object members => membersPrinted members
  | .unary _ operand | .spread operand | .member operand _ => operand.printed
  | .binary _ left right | .index left right => left.printed ++ right.printed
  | .conditional test thenExpr elseExpr => test.printed ++ thenExpr.printed ++ elseExpr.printed
  | .call callee args | .construct callee args => callee.printed ++ itemsPrinted args
  | .function func =>
    match func.forwardedCallee with
    | some _ => []
    | none => func.printed
  | .emit template args => segmentsPrinted (argsPrinted args) (expandTemplate template args)

/-- The expressions that are printed in items. -/
def itemsPrinted : List Expr → List Expr
  | [] => []
  | e :: es => e.printed ++ itemsPrinted es

/-- The expressions that are printed in each argument. -/
def argsPrinted : List Expr → List (List Expr)
  | [] => []
  | e :: es => e.printed :: argsPrinted es

/-- The expressions that are printed in the members of an object. -/
def membersPrinted : List ObjectMember → List Expr
  | [] => []
  | ⟨_, value⟩ :: rest => value.printed ++ membersPrinted rest

/-- The expressions that are printed in the value of a member. -/
def MemberValue.printed : MemberValue → List Expr
  | .value e => e.printed
  | .method func | .getter func | .setter func => func.printed

/-- The expressions that are printed in a function. -/
def Func.printed : Func → List Expr
  | ⟨_, _, _, body⟩ => body.printed

/-- The expressions that are printed in the body of a function. -/
def FuncBody.printed : FuncBody → List Expr
  | .value e => e.printed
  | .block stmts => stmtsPrinted stmts

/-- The expressions that are printed with the live statements of a list. -/
def stmtsPrinted : List Stmt → List Expr
  | [] => []
  | s :: ss => if s.isDead then stmtsPrinted ss else s.printed ++ stmtsPrinted ss

/-- The expressions that are printed in a statement. -/
def Stmt.printed : Stmt → List Expr
  | ⟨_, form⟩ => form.printed

/-- The expressions that are printed in the form of a statement. -/
def StmtForm.printed : StmtForm → List Expr
  | .expr e | .throw e => e.printed
  | .block stmts => stmtsPrinted stmts
  | .declare decl => decl.printed
  | .ifElse test thenStmts elseStmts =>
    test.printed ++ stmtsPrinted thenStmts ++ stmtsPrinted elseStmts
  | .whileLoop test body => test.printed ++ stmtsPrinted body
  | .forLoop start test update body =>
    startPrinted start ++ clausePrinted test ++ clausePrinted update ++ stmtsPrinted body
  | .ret value => clausePrinted value
  | .breakTo _ | .continueTo _ | .debugger => []
  | .labeled _ body | .exported body => body.printed
  | .tryCatch body handler finalizer =>
    stmtsPrinted body ++ handlerPrinted handler ++ finalizerPrinted finalizer
  | .switch subject cases => subject.printed ++ casesPrinted cases
  | .function func => func.printed
  | .classDecl decl => decl.printed

/-- The expressions that are printed in a declaration. -/
def VarDecl.printed : VarDecl → List Expr
  | ⟨_, declarators⟩ => declaratorsPrinted declarators

/-- The expressions that are printed in declarators. -/
def declaratorsPrinted : List Declarator → List Expr
  | [] => []
  | ⟨_, value⟩ :: rest => clausePrinted value ++ declaratorsPrinted rest

/-- The expressions that are printed in the head of a loop. -/
def startPrinted : Option VarDecl → List Expr
  | none => []
  | some decl => decl.printed

/-- The expressions that are printed in an expression that may be missing. -/
def clausePrinted : Option Expr → List Expr
  | none => []
  | some e => e.printed

/-- The expressions that are printed in a handler. -/
def handlerPrinted : Option CatchClause → List Expr
  | none => []
  | some ⟨_, body⟩ => stmtsPrinted body

/-- The expressions that are printed in a finalizer. -/
def finalizerPrinted : Option (List Stmt) → List Expr
  | none => []
  | some stmts => stmtsPrinted stmts

/-- The expressions that are printed in the cases of a switch. -/
def casesPrinted : List SwitchCase → List Expr
  | [] => []
  | ⟨test, body⟩ :: rest => clausePrinted test ++ stmtsPrinted body ++ casesPrinted rest

/-- The expressions that are printed in a class. -/
def ClassDecl.printed : ClassDecl → List Expr
  | ⟨_, base, members⟩ => clausePrinted base ++ methodsPrinted members

/-- The expressions that are printed in the members of a class. -/
def methodsPrinted : List ClassMember → List Expr
  | [] => []
  | ⟨_, _, _, func⟩ :: rest => func.printed ++ methodsPrinted rest

end

/-- The expressions that are printed with a program. -/
def Program.printedExprs (program : Program) : List Expr :=
  stmtsPrinted program.body

/-! ## The pieces of what is printed -/

/-- All of the expressions are found in the pieces. -/
def AllPartsOf (sep : Separator) (es : List Expr) (pieces : List Piece) : Prop :=
  ∀ e ∈ es, PartOf (e.pieces sep) pieces

/-- Each of the expressions is found in one of the lists of pieces. -/
def AllPartsOfSome (sep : Separator) (es : List Expr) (items : List (List Piece)) : Prop :=
  ∀ e ∈ es, ∃ pieces ∈ items, PartOf (e.pieces sep) pieces

section
variable {sep : Separator} {es fs : List Expr} {xs ys : List Piece} {items : List (List Piece)}

namespace AllPartsOf

/-- Of no expressions, all are parts. -/
theorem nil (pieces : List Piece) : AllPartsOf sep [] pieces := by
  intro e he
  cases he

/-- Parts of the first pieces are parts of both. -/
theorem left (h : AllPartsOf sep es xs) : AllPartsOf sep es (xs ++ ys) :=
  fun e he => (h e he).left

/-- Parts of the last pieces are parts of both. -/
theorem right (h : AllPartsOf sep es ys) : AllPartsOf sep es (xs ++ ys) :=
  fun e he => (h e he).right

/-- Parts stay such behind another piece. -/
theorem cons {x : Piece} (h : AllPartsOf sep es xs) : AllPartsOf sep es (x :: xs) :=
  fun e he => (h e he).cons

/-- Parts of the first and of the last pieces are parts of both. -/
theorem append (hes : AllPartsOf sep es xs) (hfs : AllPartsOf sep fs ys) :
    AllPartsOf sep (es ++ fs) (xs ++ ys) := by
  intro e he
  rcases List.mem_append.1 he with he | he
  · exact hes.left e he
  · exact hfs.right e he

/-- Parentheses keep all parts. -/
theorem wrap (isWrapped : Bool) (h : AllPartsOf sep es xs) :
    AllPartsOf sep es (Layout.wrap isWrapped xs) :=
  fun e he => (h e he).wrap isWrapped

/-- A line end keeps all parts. -/
theorem line (h : AllPartsOf sep es xs) : AllPartsOf sep es (Layout.line xs) :=
  fun e he => (h e he).line

/-- Braces keep all parts. -/
theorem braces (h : AllPartsOf sep es xs) : AllPartsOf sep es (Layout.braces xs) :=
  fun e he => (h e he).braces

end AllPartsOf

namespace AllPartsOfSome

/-- Of no expressions, all are parts of some item. -/
theorem nil (items : List (List Piece)) : AllPartsOfSome sep [] items := by
  intro e he
  cases he

/-- Parts of one item and of others are parts of some item. -/
theorem cons (hes : AllPartsOf sep es xs) (hfs : AllPartsOfSome sep fs items) :
    AllPartsOfSome sep (es ++ fs) (xs :: items) := by
  intro e he
  rcases List.mem_append.1 he with he | he
  · exact ⟨xs, List.mem_cons_self, hes e he⟩
  · obtain ⟨pieces, hmem, h⟩ := hfs e he
    exact ⟨pieces, List.mem_cons_of_mem _ hmem, h⟩

/-- Parts of some item are parts of the list. -/
theorem commas (h : AllPartsOfSome sep es items) : AllPartsOf sep es (commas items) := by
  intro e he
  obtain ⟨pieces, hmem, h⟩ := h e he
  exact h.commas hmem

/-- Parts of some statement are parts of the lines of all. -/
theorem stmtLines (h : AllPartsOfSome sep es items) (follows : Bool) :
    AllPartsOf sep es (Layout.stmtLines sep follows items) := by
  intro e he
  obtain ⟨pieces, hmem, h⟩ := h e he
  exact h.stmtLines hmem

/-- Parts of some statement are parts of the block. -/
theorem block {stmts : List (Bool × List Piece)} (h : AllPartsOfSome sep es (stmts.map (·.2))) :
    AllPartsOf sep es (block sep stmts) :=
  (h.stmtLines false).braces

/-- Parts of some statement are parts of the else branch. -/
theorem elsePieces {stmts : List (Bool × List Piece)}
    (h : AllPartsOfSome sep es (stmts.map (·.2))) : AllPartsOf sep es (elsePieces sep stmts) := by
  intro e he
  rw [JavaScript.elsePieces.eq_def]
  split
  · obtain ⟨pieces, hmem, -⟩ := h e he
    cases hmem
  · obtain ⟨pieces, hmem, h⟩ := h e he
    rw [List.mem_singleton.1 hmem] at h
    exact h.cons
  · exact h.block.cons e he

end AllPartsOfSome

/-- What is printed with the arguments of foreign code is printed with the code, where they are. -/
theorem segmentPieces_allPartsOf {printed : List (List Expr)} {args : List (List Piece)}
    (h : ∀ i, AllPartsOf sep (printed.getD i []) (args.getD i []))
    (segments : List Template.Segment) :
    AllPartsOf sep (segmentsPrinted printed segments) (segmentPieces args segments) := by
  induction segments with
  | nil => exact .nil _
  | cons segment segments ih =>
    cases segment with
    | text text => exact ih.right
    | arg i isWrapped => exact ((h i).wrap isWrapped).append ih

end

variable (sep : Separator)

mutual

/-- What is printed in an expression is found in the pieces. -/
theorem Expr.allPartsOf : (e : Expr) → AllPartsOf sep e.printed (e.pieces sep)
  | ⟨loc, form⟩ => by
    rw [Expr.printed, Expr.pieces]
    intro e he
    rcases List.mem_cons.1 he with rfl | he
    · rw [Expr.pieces]
      exact .refl _
    · exact form.allPartsOf loc e he

/-- What is printed in the form of an expression is found in the pieces. -/
theorem ExprForm.allPartsOf (loc : Option Ir.Location) :
    (form : ExprForm) → AllPartsOf sep form.printed (form.pieces sep loc)
  | .ident _ | .this | .literal _ => by rw [ExprForm.printed]; exact .nil _
  | .array items => by
    rw [ExprForm.printed, ExprForm.pieces]
    exact (itemsAllPartsOf items).commas.right.left
  | .sequence items => by
    rw [ExprForm.printed, ExprForm.pieces]
    exact (itemsAllPartsOf items).commas.right
  | .object members => by
    rw [ExprForm.printed, ExprForm.pieces]
    exact (membersAllPartsOf members).commas.right.left
  | .unary op operand => by
    rw [ExprForm.printed, ExprForm.pieces]
    exact (operand.allPartsOf.wrap _).right
  | .spread operand => by
    rw [ExprForm.printed, ExprForm.pieces]
    exact (operand.allPartsOf.wrap _).right
  | .member obj property => by
    rw [ExprForm.printed, ExprForm.pieces]
    exact (obj.allPartsOf.wrap _).right.left
  | .binary op left right => by
    rw [ExprForm.printed, ExprForm.pieces]
    exact (left.allPartsOf.wrap _).right.append (right.allPartsOf.wrap _).cons
  | .index obj index => by
    rw [ExprForm.printed, ExprForm.pieces]
    exact ((obj.allPartsOf.wrap _).right.append index.allPartsOf.cons).left
  | .conditional test thenExpr elseExpr => by
    rw [ExprForm.printed, ExprForm.pieces]
    exact ((test.allPartsOf.wrap _).right.append (thenExpr.allPartsOf.wrap _).cons).append
      (elseExpr.allPartsOf.wrap _).cons
  | .call callee args => by
    rw [ExprForm.printed, ExprForm.pieces]
    exact ((callee.allPartsOf.wrap _).right.append (itemsAllPartsOf args).commas.cons).left
  | .construct callee args => by
    rw [ExprForm.printed, ExprForm.pieces]
    exact ((callee.allPartsOf.wrap _).right.append (itemsAllPartsOf args).commas.cons).left
  | .function func => by
    rw [ExprForm.printed, ExprForm.pieces]
    cases func.forwardedCallee with
    | some callee => exact .nil _
    | none => exact func.valueAllPartsOf.right
  | .emit template args => by
    rw [ExprForm.printed, ExprForm.pieces]
    exact (segmentPieces_allPartsOf (argsAllPartsOf args) _).right

/-- What is printed in items is found in the pieces. -/
theorem itemsAllPartsOf : (es : List Expr) →
    AllPartsOfSome sep (itemsPrinted es) (itemPieces sep es)
  | [] => by rw [itemsPrinted]; exact .nil _
  | e :: es => by
    rw [itemsPrinted, itemPieces]
    exact .cons (e.allPartsOf.wrap _) (itemsAllPartsOf es)

/-- What is printed in an argument is found in the pieces of that argument. -/
theorem argsAllPartsOf : (es : List Expr) →
    ∀ i, AllPartsOf sep ((argsPrinted es).getD i []) ((argPieces sep es).getD i [])
  | [], i => by rw [argsPrinted]; exact .nil _
  | e :: es, 0 => by rw [argsPrinted, argPieces]; exact e.allPartsOf
  | e :: es, i + 1 => by rw [argsPrinted, argPieces]; exact argsAllPartsOf es i

/-- What is printed in the members of an object is found in the pieces. -/
theorem membersAllPartsOf : (members : List ObjectMember) →
    AllPartsOfSome sep (membersPrinted members) (memberPieces sep members)
  | [] => by rw [membersPrinted]; exact .nil _
  | ⟨key, value⟩ :: rest => by
    rw [membersPrinted, memberPieces]
    exact .cons (value.allPartsOf key) (membersAllPartsOf rest)

/-- What is printed in the value of a member is found in the pieces. -/
theorem MemberValue.allPartsOf (key : String) : (value : MemberValue) →
    AllPartsOf sep value.printed (value.pieces sep key)
  | .value e => by
    rw [MemberValue.printed, MemberValue.pieces]
    exact (e.allPartsOf.wrap _).cons
  | .method func | .getter func | .setter func => by
    rw [MemberValue.printed, MemberValue.pieces]
    exact func.methodAllPartsOf.cons

/-- What is printed in a function that is a value is found in the pieces. -/
theorem Func.valueAllPartsOf : (func : Func) → AllPartsOf sep func.printed (func.valuePieces sep)
  | ⟨name, isArrow, params, body⟩ => by
    rw [Func.printed, Func.valuePieces.eq_def]
    cases isArrow with
    | true => exact body.arrowAllPartsOf.cons
    | false => exact body.allPartsOf.cons

/-- What is printed in a function that is declared is found in the pieces. -/
theorem Func.declAllPartsOf : (func : Func) → AllPartsOf sep func.printed (func.declPieces sep)
  | ⟨name, isArrow, params, body⟩ => by
    rw [Func.printed, Func.declPieces.eq_def]
    exact body.allPartsOf.cons

/-- What is printed in a method is found in the pieces. -/
theorem Func.methodAllPartsOf : (func : Func) → AllPartsOf sep func.printed (func.methodPieces sep)
  | ⟨name, isArrow, params, body⟩ => by
    rw [Func.printed, Func.methodPieces]
    exact body.allPartsOf.cons

/-- What is printed in the body of an arrow function is found in the pieces. -/
theorem FuncBody.arrowAllPartsOf : (body : FuncBody) →
    AllPartsOf sep body.printed (body.arrowPieces sep)
  | .value e => by
    rw [FuncBody.printed, FuncBody.arrowPieces]
    exact e.allPartsOf.wrap _
  | .block stmts => by
    rw [FuncBody.printed, FuncBody.arrowPieces]
    exact (stmtsAllPartsOf stmts).block

/-- What is printed in the body of a function is found in the pieces. -/
theorem FuncBody.allPartsOf : (body : FuncBody) → AllPartsOf sep body.printed (body.pieces sep)
  | .value ⟨loc, form⟩ => by
    rw [FuncBody.printed, FuncBody.pieces]
    have h := Expr.allPartsOf ⟨loc, form⟩
    rw [Expr.pieces] at h
    exact h.cons.right.left.line.braces
  | .block stmts => by
    rw [FuncBody.printed, FuncBody.pieces]
    exact (stmtsAllPartsOf stmts).block

/-- What is printed in live statements is found in the pieces. -/
theorem stmtsAllPartsOf : (stmts : List Stmt) →
    AllPartsOfSome sep (stmtsPrinted stmts) ((livePieces sep stmts).map (·.2))
  | [] => by rw [stmtsPrinted]; exact .nil _
  | s :: ss => by
    rw [stmtsPrinted, livePieces]
    cases s.isDead with
    | true => exact stmtsAllPartsOf ss
    | false => exact .cons s.allPartsOf (stmtsAllPartsOf ss)

/-- What is printed in a statement is found in the pieces. -/
theorem Stmt.allPartsOf : (s : Stmt) → AllPartsOf sep s.printed (s.pieces sep)
  | ⟨loc, form⟩ => by
    rw [Stmt.printed, Stmt.pieces]
    exact form.allPartsOf.right

/-- What is printed in the form of a statement is found in the pieces. -/
theorem StmtForm.allPartsOf : (form : StmtForm) → AllPartsOf sep form.printed (form.pieces sep)
  | .expr e => by
    rw [StmtForm.printed, StmtForm.pieces]
    exact (e.allPartsOf.wrap _).left
  | .throw e => by
    rw [StmtForm.printed, StmtForm.pieces]
    exact e.allPartsOf.cons.left
  | .block stmts => by
    rw [StmtForm.printed, StmtForm.pieces]
    exact (stmtsAllPartsOf stmts).block
  | .declare decl => by
    rw [StmtForm.printed, StmtForm.pieces]
    exact decl.allPartsOf.left
  | .ifElse test thenStmts elseStmts => by
    rw [StmtForm.printed, StmtForm.pieces]
    exact (test.allPartsOf.cons.append (stmtsAllPartsOf thenStmts).block.cons).append
      (stmtsAllPartsOf elseStmts).elsePieces
  | .whileLoop test body => by
    rw [StmtForm.printed, StmtForm.pieces]
    exact test.allPartsOf.cons.append (stmtsAllPartsOf body).block.cons
  | .forLoop start test update body => by
    rw [StmtForm.printed, StmtForm.pieces]
    exact (((startAllPartsOf start).cons.append (clauseAllPartsOf test).cons).append
      (clauseAllPartsOf update).cons).append (stmtsAllPartsOf body).block.cons
  | .ret value => by
    rw [StmtForm.printed, StmtForm.pieces]
    exact (clauseAllPartsOf value).cons.left
  | .breakTo _ | .continueTo _ | .debugger => by rw [StmtForm.printed]; exact .nil _
  | .labeled label body => by
    rw [StmtForm.printed, StmtForm.pieces]
    exact body.allPartsOf.cons
  | .exported decl => by
    rw [StmtForm.printed, StmtForm.pieces]
    exact decl.allPartsOf.cons
  | .tryCatch body handler finalizer => by
    rw [StmtForm.printed, StmtForm.pieces]
    exact ((stmtsAllPartsOf body).block.cons.append (handlerAllPartsOf handler)).append
      (finalizerAllPartsOf finalizer)
  | .switch subject cases => by
    rw [StmtForm.printed, StmtForm.pieces]
    exact subject.allPartsOf.cons.append (casesAllPartsOf cases).braces.cons
  | .function func => by
    rw [StmtForm.printed, StmtForm.pieces]
    exact func.declAllPartsOf
  | .classDecl decl => by
    rw [StmtForm.printed, StmtForm.pieces]
    exact decl.allPartsOf

/-- What is printed in a declaration is found in the pieces. -/
theorem VarDecl.allPartsOf : (decl : VarDecl) → AllPartsOf sep decl.printed (decl.pieces sep)
  | ⟨mode, declarators⟩ => by
    rw [VarDecl.printed, VarDecl.pieces]
    exact (declaratorsAllPartsOf declarators).commas.cons

/-- What is printed in declarators is found in the pieces. -/
theorem declaratorsAllPartsOf : (declarators : List Declarator) →
    AllPartsOfSome sep (declaratorsPrinted declarators) (declaratorPieces sep declarators)
  | [] => by rw [declaratorsPrinted]; exact .nil _
  | ⟨name, value⟩ :: rest => by
    rw [declaratorsPrinted, declaratorPieces]
    exact .cons (initializerAllPartsOf value).cons (declaratorsAllPartsOf rest)

/-- What is printed in an initial value is found in the pieces. -/
theorem initializerAllPartsOf : (value : Option Expr) →
    AllPartsOf sep (clausePrinted value) (initializerPieces sep value)
  | none => by rw [clausePrinted]; exact .nil _
  | some e => by
    rw [clausePrinted, initializerPieces]
    exact (e.allPartsOf.wrap _).cons

/-- What is printed in the head of a loop is found in the pieces. -/
theorem startAllPartsOf : (start : Option VarDecl) →
    AllPartsOf sep (startPrinted start) (startPieces sep start)
  | none => by rw [startPrinted]; exact .nil _
  | some decl => by
    rw [startPrinted, startPieces]
    exact decl.allPartsOf

/-- What is printed in a clause is found in the pieces. -/
theorem clauseAllPartsOf : (value : Option Expr) →
    AllPartsOf sep (clausePrinted value) (clausePieces sep value)
  | none => by rw [clausePrinted]; exact .nil _
  | some e => by
    rw [clausePrinted, clausePieces]
    exact e.allPartsOf.cons

/-- What is printed in a handler is found in the pieces. -/
theorem handlerAllPartsOf : (handler : Option CatchClause) →
    AllPartsOf sep (handlerPrinted handler) (handlerPieces sep handler)
  | none => by rw [handlerPrinted]; exact .nil _
  | some ⟨param, body⟩ => by
    rw [handlerPrinted, handlerPieces.eq_def]
    exact (stmtsAllPartsOf body).block.cons

/-- What is printed in a finalizer is found in the pieces. -/
theorem finalizerAllPartsOf : (finalizer : Option (List Stmt)) →
    AllPartsOf sep (finalizerPrinted finalizer) (finalizerPieces sep finalizer)
  | none => by rw [finalizerPrinted]; exact .nil _
  | some stmts => by
    rw [finalizerPrinted, finalizerPieces]
    exact (stmtsAllPartsOf stmts).block.cons

/-- What is printed in the cases of a switch is found in the pieces. -/
theorem casesAllPartsOf : (cases : List SwitchCase) →
    AllPartsOf sep (casesPrinted cases) (casePieces sep cases)
  | [] => by rw [casesPrinted]; exact .nil _
  | ⟨test, body⟩ :: rest => by
    rw [casesPrinted, casePieces]
    exact ((testAllPartsOf test).append (stmtsAllPartsOf body).block).line.append
      (casesAllPartsOf rest)

/-- What is printed in the test of a case is found in the pieces. -/
theorem testAllPartsOf : (test : Option Expr) →
    AllPartsOf sep (clausePrinted test) (testPieces sep test)
  | none => by rw [clausePrinted]; exact .nil _
  | some e => by
    rw [clausePrinted, testPieces]
    exact e.allPartsOf.cons.left

/-- What is printed in a class is found in the pieces. -/
theorem ClassDecl.allPartsOf : (decl : ClassDecl) → AllPartsOf sep decl.printed (decl.pieces sep)
  | ⟨name, base, members⟩ => by
    rw [ClassDecl.printed, ClassDecl.pieces]
    exact (baseAllPartsOf base).cons.append (methodsAllPartsOf members).braces.cons

/-- What is printed in the base of a class is found in the pieces. -/
theorem baseAllPartsOf : (base : Option Expr) →
    AllPartsOf sep (clausePrinted base) (basePieces sep base)
  | none => by rw [clausePrinted]; exact .nil _
  | some e => by
    rw [clausePrinted, basePieces]
    exact (e.allPartsOf.wrap _).cons

/-- What is printed in the members of a class is found in the pieces. -/
theorem methodsAllPartsOf : (members : List ClassMember) →
    AllPartsOf sep (methodsPrinted members) (classMemberPieces sep members)
  | [] => by rw [methodsPrinted]; exact .nil _
  | ⟨key, kind, isStatic, func⟩ :: rest => by
    rw [methodsPrinted, classMemberPieces.eq_def]
    exact func.methodAllPartsOf.cons.line.append (methodsAllPartsOf rest)

end

/-- The pieces of every expression that is printed with a program are found in those of the
program. -/
theorem Program.parts_of_pieces (program : Program) :
    AllPartsOf sep program.printedExprs (program.pieces sep) := by
  rw [Program.printedExprs, Program.pieces, stmtsPieces]
  exact ((stmtsAllPartsOf sep program.body).stmtLines false).right

end JavaScript

end TypedLowering
