import NoeDB.Prepared

/-! Where the parameters of a query stand, compared with the places that binding reaches
and counts. -/
namespace NoeDB.ParameterBinding
open SqlAst Prepared List

structure Mark where
  index : Nat
  reached : Bool
  counted : Bool
  deriving DecidableEq, Repr

inductive Visit where
  | statement | branch | subquery | skipped
  deriving DecidableEq, Repr

mutual

/- All parameters of an expression. Substitution does not enter functions and scalar
subqueries, counting does not enter EXISTS and scalar subqueries. -/
def exprMarks (reached counted : Bool) : Expr → List Mark
  | .literal _ => []
  | .column _ => []
  | .currentUser => []
  | .parameter index => [⟨index,reached,counted⟩]
  | .binary _ left right => exprMarks reached counted left ++ exprMarks reached counted right
  | .unary _ expr => exprMarks reached counted expr
  | .isNull expr _ => exprMarks reached counted expr
  | .inList expr values _ => exprMarks reached counted expr ++ exprsMarks reached counted values
  | .inSubquery expr query _ =>
      exprMarks reached counted expr ++ selectMarks reached (if counted then .subquery else .skipped) query
  | .existsQuery query _ => selectMarks reached .skipped query
  | .scalarSubquery query => selectMarks false .skipped query
  | .between expr low high _ =>
      exprMarks reached counted expr ++ (exprMarks reached counted low ++ exprMarks reached counted high)
  | .paren inner => exprMarks reached counted inner
  | .cast expr _ => exprMarks reached counted expr
  | .function _ args window => exprsMarks false counted args ++ windowMarks counted window

def exprsMarks (reached counted : Bool) : List Expr → List Mark
  | [] => []
  | expr :: rest => exprMarks reached counted expr ++ exprsMarks reached counted rest

def optionMarks (reached counted : Bool) : Option Expr → List Mark
  | none => []
  | some expr => exprMarks reached counted expr

def windowMarks (counted : Bool) : Option WindowSpec → List Mark
  | none => []
  | some ⟨partitionBy,orderBy,_⟩ => exprsMarks false counted partitionBy ++ keysMarks counted orderBy

def keysMarks (counted : Bool) : List OrderKey → List Mark
  | [] => []
  | ⟨expr,_⟩ :: rest => exprMarks false counted expr ++ keysMarks counted rest

def itemsMarks (reached counted : Bool) : List SelectItem → List Mark
  | [] => []
  | ⟨expr,_⟩ :: rest => exprMarks reached counted expr ++ itemsMarks reached counted rest

def joinsMarks : List Join → List Mark
  | [] => []
  | ⟨_,_,condition⟩ :: rest => exprMarks false false condition ++ joinsMarks rest

def ctesMarks (reached : Bool) (visit : Visit) : List CteDef → List Mark
  | [] => []
  | ⟨_,.select query⟩ :: rest => selectMarks reached visit query ++ ctesMarks reached visit rest
  | ⟨_,.union anchor _ recursive⟩ :: rest =>
      selectMarks reached visit anchor ++ (selectMarks reached visit recursive ++ ctesMarks reached visit rest)

def withMarks (reached : Bool) (visit : Visit) : Option WithClause → List Mark
  | none => []
  | some ⟨_,ctes⟩ => ctesMarks reached visit ctes

def fromMarks : Option FromItem → List Mark
  | none => []
  | some (.table _) => []
  | some (.subquery query _) => selectMarks false .skipped query

def compoundMarks (reached : Bool) (visit : Visit) : Option CompoundSelect → List Mark
  | none => []
  | some ⟨_,_,right⟩ => selectMarks reached visit right

/- All parameters of a query. Substitution does not enter FROM, the joins and ORDER BY;
counting enters the select list and the WHERE clause, the common table expressions of the
statement and the further branches of those. -/
def selectMarks (reached : Bool) (visit : Visit) : SelectStmt → List Mark
  | ⟨withClause,_,items,source,joins,whereClause,groupBy,havingClause,orderBy,_,_,compound⟩ =>
      itemsMarks reached (visit ≠ .skipped) items ++ (joinsMarks joins ++
        (optionMarks reached (visit ≠ .skipped) whereClause ++ (exprsMarks reached false groupBy ++
          (optionMarks reached false havingClause ++ (keysMarks false orderBy ++
            (withMarks reached (if visit = .statement then .branch else .skipped) withClause ++ (fromMarks source ++
              compoundMarks reached (if visit = .branch then .branch else .skipped) compound)))))))

end

def statementMarks (stmt : SelectStmt) : List Mark := selectMarks true .statement stmt

section

variable (value : Nat → Expr)

mutual

def replaceExpr : Expr → Expr
  | .literal value => .literal value
  | .column ref => .column ref
  | .currentUser => .currentUser
  | .parameter index => value index
  | .binary op left right => .binary op (replaceExpr left) (replaceExpr right)
  | .unary op expr => .unary op (replaceExpr expr)
  | .isNull expr negated => .isNull (replaceExpr expr) negated
  | .inList expr values negated => .inList (replaceExpr expr) (replaceExprs values) negated
  | .inSubquery expr query negated => .inSubquery (replaceExpr expr) (replaceSelect query) negated
  | .existsQuery query negated => .existsQuery (replaceSelect query) negated
  | .scalarSubquery query => .scalarSubquery (replaceSelect query)
  | .between expr low high negated =>
      .between (replaceExpr expr) (replaceExpr low) (replaceExpr high) negated
  | .paren inner => .paren (replaceExpr inner)
  | .cast expr dataType => .cast (replaceExpr expr) dataType
  | .function name args window => .function name (replaceExprs args) (replaceWindow window)

def replaceExprs : List Expr → List Expr
  | [] => []
  | expr :: rest => replaceExpr expr :: replaceExprs rest

def replaceOption : Option Expr → Option Expr
  | none => none
  | some expr => some (replaceExpr expr)

def replaceWindow : Option WindowSpec → Option WindowSpec
  | none => none
  | some ⟨partitionBy,orderBy,frame⟩ => some ⟨replaceExprs partitionBy,replaceKeys orderBy,frame⟩

def replaceKeys : List OrderKey → List OrderKey
  | [] => []
  | ⟨expr,asc⟩ :: rest => ⟨replaceExpr expr,asc⟩ :: replaceKeys rest

def replaceItems : List SelectItem → List SelectItem
  | [] => []
  | ⟨expr,aliasName⟩ :: rest => ⟨replaceExpr expr,aliasName⟩ :: replaceItems rest

def replaceJoins : List Join → List Join
  | [] => []
  | ⟨kind,table,condition⟩ :: rest => ⟨kind,table,replaceExpr condition⟩ :: replaceJoins rest

def replaceCtes : List CteDef → List CteDef
  | [] => []
  | ⟨name,.select query⟩ :: rest => ⟨name,.select (replaceSelect query)⟩ :: replaceCtes rest
  | ⟨name,.union anchor all recursive⟩ :: rest =>
      ⟨name,.union (replaceSelect anchor) all (replaceSelect recursive)⟩ :: replaceCtes rest

def replaceWith : Option WithClause → Option WithClause
  | none => none
  | some ⟨recursive,ctes⟩ => some ⟨recursive,replaceCtes ctes⟩

def replaceFrom : Option FromItem → Option FromItem
  | none => none
  | some (.table ref) => some (.table ref)
  | some (.subquery query name) => some (.subquery (replaceSelect query) name)

def replaceCompound : Option CompoundSelect → Option CompoundSelect
  | none => none
  | some ⟨op,all,right⟩ => some ⟨op,all,replaceSelect right⟩

def replaceSelect : SelectStmt → SelectStmt
  | ⟨withClause,distinct,items,source,joins,whereClause,groupBy,havingClause,orderBy,limit,offset,compound⟩ =>
      { withClause := replaceWith withClause
        distinct
        items := replaceItems items
        from' := replaceFrom source
        joins := replaceJoins joins
        whereClause := replaceOption whereClause
        groupBy := replaceExprs groupBy
        havingClause := replaceOption havingClause
        orderBy := replaceKeys orderBy
        limit
        offset
        compound := replaceCompound compound }

end

end

def Below (reached counted : Bool) (marks : List Mark) : Prop :=
  ∀ m ∈ marks,(m.reached = true → reached = true) ∧ (m.counted = true → counted = true)

@[simp] theorem belowNil (reached counted) : Below reached counted [] := fun _ mem => by cases mem

@[simp] theorem belowAppend {left} :
    Below reached counted (left ++ right) ↔ Below reached counted left ∧ Below reached counted right :=
  forall_mem_append

theorem Below.mono (below : Below reached counted marks)
    (reach : reached = true → reached' = true) (count : counted = true → counted' = true) :
    Below reached' counted' marks :=
  fun m mem => ⟨fun got => reach ((below m mem).1 got),fun got => count ((below m mem).2 got)⟩

mutual

theorem exprBelow (reached counted : Bool) : ∀ e,Below reached counted (exprMarks reached counted e)
  | .literal _ | .column _ | .currentUser => belowNil _ _
  | .parameter _ => fun m mem => by
      cases mem_singleton.mp mem
      exact ⟨id,id⟩
  | .binary _ left right => belowAppend.mpr ⟨exprBelow reached counted left,exprBelow reached counted right⟩
  | .unary _ expr | .isNull expr _ | .paren expr | .cast expr _ => exprBelow reached counted expr
  | .inList expr values _ => belowAppend.mpr ⟨exprBelow reached counted expr,exprsBelow reached counted values⟩
  | .inSubquery expr query _ => by
      have inner := selectBelow reached (if counted then .subquery else .skipped) query
      exact belowAppend.mpr ⟨exprBelow reached counted expr,inner.mono id (by cases counted <;> simp)⟩
  | .existsQuery query _ => (selectBelow reached .skipped query).mono id (by simp)
  | .scalarSubquery query => (selectBelow false .skipped query).mono (by simp) (by simp)
  | .between expr low high _ => belowAppend.mpr ⟨exprBelow reached counted expr,
      belowAppend.mpr ⟨exprBelow reached counted low,exprBelow reached counted high⟩⟩
  | .function _ args window => belowAppend.mpr ⟨(exprsBelow false counted args).mono (by simp) id,
      (windowBelow counted window).mono (by simp) id⟩

theorem exprsBelow (reached counted) : ∀ l,Below reached counted (exprsMarks reached counted l)
  | [] => belowNil _ _
  | e :: rest => belowAppend.mpr ⟨exprBelow reached counted e,exprsBelow reached counted rest⟩

theorem optionBelow (reached counted) : ∀ o,Below reached counted (optionMarks reached counted o)
  | none => belowNil _ _
  | some e => exprBelow reached counted e

theorem windowBelow (counted) : ∀ window,Below false counted (windowMarks counted window)
  | none => belowNil _ _
  | some ⟨partitionBy,orderBy,_⟩ => belowAppend.mpr ⟨exprsBelow false counted partitionBy,keysBelow counted orderBy⟩

theorem keysBelow (counted) : ∀ l,Below false counted (keysMarks counted l)
  | [] => belowNil _ _
  | ⟨e,_⟩ :: rest => belowAppend.mpr ⟨exprBelow false counted e,keysBelow counted rest⟩

theorem itemsBelow (reached counted) : ∀ l,Below reached counted (itemsMarks reached counted l)
  | [] => belowNil _ _
  | ⟨e,_⟩ :: rest => belowAppend.mpr ⟨exprBelow reached counted e,itemsBelow reached counted rest⟩

theorem joinsBelow : ∀ l,Below false false (joinsMarks l)
  | [] => belowNil _ _
  | ⟨_,_,condition⟩ :: rest => belowAppend.mpr ⟨exprBelow false false condition,joinsBelow rest⟩

theorem ctesBelow (reached visit) : ∀ l,Below reached (visit ≠ .skipped) (ctesMarks reached visit l)
  | [] => belowNil _ _
  | ⟨_,.select query⟩ :: rest => belowAppend.mpr ⟨selectBelow reached visit query,ctesBelow reached visit rest⟩
  | ⟨_,.union anchor _ recursive⟩ :: rest => belowAppend.mpr ⟨selectBelow reached visit anchor,
      belowAppend.mpr ⟨selectBelow reached visit recursive,ctesBelow reached visit rest⟩⟩

theorem withBelow (reached visit) : ∀ clause, Below reached (visit ≠ .skipped) (withMarks reached visit clause)
  | none => belowNil _ _
  | some ⟨_,ctes⟩ => ctesBelow reached visit ctes

theorem fromBelow : ∀ item,Below false false (fromMarks item)
  | none => belowNil _ _
  | some (.table _) => belowNil _ _
  | some (.subquery query _) => selectBelow false .skipped query

theorem compoundBelow (reached visit) : ∀ compound,
    Below reached (visit ≠ .skipped) (compoundMarks reached visit compound)
  | none => belowNil _ _
  | some ⟨_,_,right⟩ => selectBelow reached visit right

theorem selectBelow (reached : Bool) (visit) : ∀ s, Below reached (visit ≠ .skipped) (selectMarks reached visit s)
  | ⟨withClause,_,items,source,joins,whereClause,groupBy,havingClause,orderBy,_,_,compound⟩ => by
      simp only [selectMarks,belowAppend]
      exact ⟨itemsBelow _ _ items,(joinsBelow joins).mono (by simp) (by simp),optionBelow _ _ whereClause,
        (exprsBelow _ _ groupBy).mono id (by simp),(optionBelow _ _ havingClause).mono id (by simp),
        (keysBelow _ orderBy).mono (by simp) (by simp),(withBelow _ _ withClause).mono id (by cases visit <;> simp),
        (fromBelow source).mono (by simp) (by simp),(compoundBelow _ _ compound).mono id (by cases visit <;> simp)⟩

end

section

variable {value : Nat → Expr}

mutual

theorem exprKept : ∀ e,exprMarks reached counted e = [] → replaceExpr value e = e
  | .literal _,_ | .column _,_ | .currentUser,_ => rfl
  | .parameter _,empty => by cases empty
  | .binary _ left right,empty => by
      obtain ⟨first,second⟩ := append_eq_nil_iff.mp empty
      rw [replaceExpr,exprKept left first,exprKept right second]
  | .unary _ expr,empty | .isNull expr _,empty | .paren expr,empty
  | .cast expr _,empty => by rw [replaceExpr,exprKept expr empty]
  | .inList expr values _,empty => by
      obtain ⟨first,rest⟩ := append_eq_nil_iff.mp empty
      rw [replaceExpr,exprKept expr first,exprsKept values rest]
  | .inSubquery expr query _,empty => by
      obtain ⟨first,inner⟩ := append_eq_nil_iff.mp empty
      rw [replaceExpr,exprKept expr first,selectKept query inner]
  | .existsQuery query _,empty | .scalarSubquery query,empty => by rw [replaceExpr,selectKept query empty]
  | .between expr low high _,empty => by
      obtain ⟨first,rest⟩ := append_eq_nil_iff.mp empty
      obtain ⟨second,third⟩ := append_eq_nil_iff.mp rest
      rw [replaceExpr,exprKept expr first,exprKept low second,exprKept high third]
  | .function _ args window,empty => by
      obtain ⟨first,rest⟩ := append_eq_nil_iff.mp empty
      rw [replaceExpr,exprsKept args first,windowKept window rest]

theorem exprsKept : ∀ l,exprsMarks reached counted l = [] → replaceExprs value l = l
  | [],_ => rfl
  | e :: rest,empty => by
      obtain ⟨first,later⟩ := append_eq_nil_iff.mp empty
      rw [replaceExprs,exprKept e first,exprsKept rest later]

theorem optionKept : ∀ o,optionMarks reached counted o = [] → replaceOption value o = o
  | none,_ => rfl
  | some e,empty => by rw [replaceOption,exprKept e empty]

theorem windowKept : ∀ window,windowMarks counted window = [] → replaceWindow value window = window
  | none,_ => rfl
  | some ⟨partitionBy,orderBy,_⟩,empty => by
      obtain ⟨first,later⟩ := append_eq_nil_iff.mp empty
      rw [replaceWindow,exprsKept partitionBy first,keysKept orderBy later]

theorem keysKept : ∀ l,keysMarks counted l = [] → replaceKeys value l = l
  | [],_ => rfl
  | ⟨e,_⟩ :: rest,empty => by
      obtain ⟨first,later⟩ := append_eq_nil_iff.mp empty
      rw [replaceKeys,exprKept e first,keysKept rest later]

theorem itemsKept : ∀ l,itemsMarks reached counted l = [] → replaceItems value l = l
  | [],_ => rfl
  | ⟨e,_⟩ :: rest,empty => by
      obtain ⟨first,later⟩ := append_eq_nil_iff.mp empty
      rw [replaceItems,exprKept e first,itemsKept rest later]

theorem joinsKept : ∀ l,joinsMarks l = [] → replaceJoins value l = l
  | [],_ => rfl
  | ⟨_,_,condition⟩ :: rest,empty => by
      obtain ⟨first,later⟩ := append_eq_nil_iff.mp empty
      rw [replaceJoins,exprKept condition first,joinsKept rest later]

theorem ctesKept : ∀ l,ctesMarks reached visit l = [] → replaceCtes value l = l
  | [],_ => rfl
  | ⟨_,.select query⟩ :: rest,empty => by
      obtain ⟨first,later⟩ := append_eq_nil_iff.mp empty
      rw [replaceCtes,selectKept query first,ctesKept rest later]
  | ⟨_,.union anchor _ recursive⟩ :: rest,empty => by
      obtain ⟨first,later⟩ := append_eq_nil_iff.mp empty
      obtain ⟨second,later⟩ := append_eq_nil_iff.mp later
      rw [replaceCtes,selectKept anchor first,selectKept recursive second,ctesKept rest later]

theorem withKept : ∀ clause,withMarks reached visit clause = [] → replaceWith value clause = clause
  | none,_ => rfl
  | some ⟨_,ctes⟩,empty => by rw [replaceWith,ctesKept ctes empty]

theorem fromKept : ∀ item,fromMarks item = [] → replaceFrom value item = item
  | none,_ | some (.table _),_ => rfl
  | some (.subquery query _),empty => by rw [replaceFrom,selectKept query empty]

theorem compoundKept : ∀ compound,compoundMarks reached visit compound = [] →
    replaceCompound value compound = compound
  | none,_ => rfl
  | some ⟨_,_,right⟩,empty => by rw [replaceCompound,selectKept right empty]

theorem selectKept : ∀ s,selectMarks reached visit s = [] → replaceSelect value s = s
  | ⟨withClause,_,items,source,joins,whereClause,groupBy,havingClause,orderBy,_,_,compound⟩,empty => by
      simp only [selectMarks,append_eq_nil_iff] at empty
      obtain ⟨first,second,third,fourth,fifth,sixth,named,from',branch⟩ := empty
      rw [replaceSelect,withKept withClause named,itemsKept items first,fromKept source from',joinsKept joins second,
        optionKept whereClause third,exprsKept groupBy fourth,optionKept havingClause fifth,keysKept orderBy sixth,
        compoundKept compound branch]

end

end

section

variable (params : List Literal)

def bound (index : Nat) : Expr := .literal ((params[index-1]?).getD .null)

def left (marks : List Mark) : List Mark := marks.filter fun m => !m.reached

@[simp] theorem leftAppend (first second) : left (first ++ second) = left first ++ left second := filter_append ..

theorem leftAll (below : Below false counted marks) : left marks = marks :=
  filter_eq_self.mpr fun m mem => by simpa using (below m mem).1

mutual

theorem exprLeft (counted : Bool) : ∀ e,exprMarks true counted (substituteExpr params e) = left (exprMarks true counted e)
  | .literal _ | .column _ | .currentUser | .parameter _ => rfl
  | .binary _ first second => by simp [substituteExpr,exprMarks,leftAppend,exprLeft counted first,exprLeft counted second]
  | .unary _ expr | .isNull expr _ | .paren expr | .cast expr _ => exprLeft counted expr
  | .inList expr values _ => by
      simp [substituteExpr,exprMarks,leftAppend,exprLeft counted expr,exprsLeft counted values]
  | .inSubquery expr query _ => by simp [substituteExpr,exprMarks,leftAppend,exprLeft counted expr,selectLeft _ query]
  | .existsQuery query _ => selectLeft .skipped query
  | .scalarSubquery query => (leftAll (selectBelow false .skipped query)).symm
  | .between expr low high _ => by
      simp [substituteExpr,exprMarks,leftAppend,exprLeft counted expr,exprLeft counted low,exprLeft counted high]
  | .function _ args window => (leftAll (belowAppend.mpr ⟨exprsBelow false counted args,windowBelow counted window⟩)).symm

theorem exprsLeft (counted) : ∀ l,
    exprsMarks true counted (substituteExprs params l) = left (exprsMarks true counted l)
  | [] => rfl
  | e :: rest => by simp [substituteExprs,exprsMarks,leftAppend,exprLeft counted e,exprsLeft counted rest]

theorem optionLeft (counted) : ∀ o,
    optionMarks true counted (substituteOption params o) = left (optionMarks true counted o)
  | none => rfl
  | some e => exprLeft counted e

theorem itemsLeft (counted) : ∀ l,
    itemsMarks true counted (substituteItems params l) = left (itemsMarks true counted l)
  | [] => rfl
  | ⟨e,_⟩ :: rest => by simp [substituteItems,itemsMarks,leftAppend,exprLeft counted e,itemsLeft counted rest]

theorem ctesLeft (visit) : ∀ l,ctesMarks true visit (substituteCtes params l) = left (ctesMarks true visit l)
  | [] => rfl
  | ⟨_,.select query⟩ :: rest => by
      simp [substituteCtes,ctesMarks,leftAppend,selectLeft visit query,ctesLeft visit rest]
  | ⟨_,.union anchor _ recursive⟩ :: rest => by
      simp [substituteCtes,ctesMarks,leftAppend,selectLeft visit anchor,selectLeft visit recursive,ctesLeft visit rest]

theorem withLeft (visit) : ∀ clause,
    withMarks true visit (substituteWith params clause) = left (withMarks true visit clause)
  | none => rfl
  | some ⟨_,ctes⟩ => ctesLeft visit ctes

theorem compoundLeft (visit) : ∀ compound,
    compoundMarks true visit (substituteCompound params compound) = left (compoundMarks true visit compound)
  | none => rfl
  | some ⟨_,_,right⟩ => selectLeft visit right

theorem selectLeft (visit : Visit) : ∀ s,selectMarks true visit (substituteSelect params s) = left (selectMarks true visit s)
  | ⟨withClause,_,items,source,joins,whereClause,groupBy,havingClause,orderBy,_,_,compound⟩ => by
      simp [substituteSelect,selectMarks,leftAppend,itemsLeft _ items,leftAll (joinsBelow joins),        optionLeft _ whereClause,exprsLeft _ groupBy,optionLeft _ havingClause,leftAll (keysBelow _ orderBy),        withLeft _ withClause,leftAll (fromBelow source),compoundLeft _ compound]

end

mutual

theorem exprAgain : ∀ e,replaceExpr (bound params) (substituteExpr params e) = replaceExpr (bound params) e
  | .literal _ | .column _ | .currentUser | .parameter _ | .scalarSubquery _ | .function _ _ _ => rfl
  | .binary _ first second => by rw [substituteExpr,replaceExpr,replaceExpr,exprAgain first,exprAgain second]
  | .unary _ expr | .isNull expr _ | .paren expr
  | .cast expr _ => by rw [substituteExpr,replaceExpr,replaceExpr,exprAgain expr]
  | .inList expr values _ => by rw [substituteExpr,replaceExpr,replaceExpr,exprAgain expr,exprsAgain values]
  | .inSubquery expr query _ => by rw [substituteExpr,replaceExpr,replaceExpr,exprAgain expr,selectAgain query]
  | .existsQuery query _ => by rw [substituteExpr,replaceExpr,replaceExpr,selectAgain query]
  | .between expr low high _ => by
      rw [substituteExpr,replaceExpr,replaceExpr,exprAgain expr,exprAgain low,exprAgain high]

theorem exprsAgain : ∀ l,replaceExprs (bound params) (substituteExprs params l) = replaceExprs (bound params) l
  | [] => rfl
  | e :: rest => by rw [substituteExprs,replaceExprs,replaceExprs,exprAgain e,exprsAgain rest]

theorem optionAgain : ∀ o,replaceOption (bound params) (substituteOption params o) = replaceOption (bound params) o
  | none => rfl
  | some e => by rw [substituteOption,replaceOption,replaceOption,exprAgain e]

theorem itemsAgain : ∀ l,replaceItems (bound params) (substituteItems params l) = replaceItems (bound params) l
  | [] => rfl
  | ⟨e,_⟩ :: rest => by rw [substituteItems,replaceItems,replaceItems,exprAgain e,itemsAgain rest]

theorem ctesAgain : ∀ l,replaceCtes (bound params) (substituteCtes params l) = replaceCtes (bound params) l
  | [] => rfl
  | ⟨_,.select query⟩ :: rest => by rw [substituteCtes,replaceCtes,replaceCtes,selectAgain query,ctesAgain rest]
  | ⟨_,.union anchor _ recursive⟩ :: rest => by
      rw [substituteCtes,replaceCtes,replaceCtes,selectAgain anchor,selectAgain recursive,ctesAgain rest]

theorem withAgain : ∀ clause,replaceWith (bound params) (substituteWith params clause) = replaceWith (bound params) clause
  | none => rfl
  | some ⟨_,ctes⟩ => by rw [substituteWith,replaceWith,replaceWith,ctesAgain ctes]

theorem compoundAgain : ∀ compound,
    replaceCompound (bound params) (substituteCompound params compound) = replaceCompound (bound params) compound
  | none => rfl
  | some ⟨_,_,right⟩ => by rw [substituteCompound,replaceCompound,replaceCompound,selectAgain right]

theorem selectAgain : ∀ s,replaceSelect (bound params) (substituteSelect params s) = replaceSelect (bound params) s
  | ⟨withClause,_,items,_,_,whereClause,groupBy,havingClause,_,_,_,compound⟩ => by
      rw [substituteSelect,replaceSelect,replaceSelect,withAgain withClause,itemsAgain items,optionAgain whereClause,
        exprsAgain groupBy,optionAgain havingClause,compoundAgain compound]

end

end

def highest (indices : List Nat) : Nat := indices.foldr max 0

def highestCounted (marks : List Mark) : Nat := highest ((marks.filter Mark.counted).map Mark.index)

@[simp] theorem highestCountedAppend (left right) :
    highestCounted (left ++ right) = max (highestCounted left) (highestCounted right) := by
  simp only [highestCounted,highest,filter_append,map_append,foldr_append]
  induction (left.filter Mark.counted).map Mark.index with
  | nil => simp
  | cons _ _ ih => simp [foldr_cons,ih,max_assoc]

theorem uncounted (below : Below reached false marks) : highestCounted marks = 0 := by
  have empty : marks.filter Mark.counted = [] := filter_eq_nil_iff.mpr fun m mem => by
    simpa using (below m mem).2
  rw [highestCounted,empty]
  rfl

theorem countedParts (reached : Bool) (visit s) : highestCounted (selectMarks reached visit s) =
    max (highestCounted (itemsMarks reached (visit ≠ .skipped) s.items))
      (max (highestCounted (optionMarks reached (visit ≠ .skipped) s.whereClause))
        (max (highestCounted (withMarks reached (if visit = .statement then .branch else .skipped) s.withClause))
          (highestCounted (compoundMarks reached (if visit = .branch then .branch else .skipped) s.compound)))) := by
  obtain ⟨_,_,_,item,joined,_,groups,having',order,_⟩ := s
  simp only [selectMarks,highestCountedAppend,uncounted (joinsBelow joined),uncounted (exprsBelow reached false groups),
    uncounted (optionBelow reached false having'),uncounted (keysBelow false order),uncounted (fromBelow item)]
  omega

def Counts (walk : Nat → Nat) (marks : List Mark) : Prop := ∀ n,walk n = max n (highestCounted marks)

theorem countsNone (below : Below reached false marks) : Counts (fun n => n) marks := fun n => by
  rw [uncounted below,Nat.max_zero]

theorem countsThen {left} (before : Counts first left)
    (after : Counts second right) : Counts (fun n => second (first n)) (left ++ right) := by
  intro n
  simp [before n,after (max n (highestCounted left)),highestCountedAppend,max_assoc]

theorem countsSubquery {s reached} (items : Counts (walkItems highestVisited s.items) (itemsMarks reached true s.items))
    (filter : Counts (walkOption highestVisited s.whereClause) (optionMarks reached true s.whereClause)) :
    Counts (fun n => walkItems highestVisited s.items (walkOption highestVisited s.whereClause n))
      (selectMarks reached .subquery s) := by
  intro n
  rw [countsThen filter items n,countedParts]
  simp only [highestCountedAppend,ne_eq,reduceCtorEq,not_false_eq_true,decide_true,if_false,
    uncounted (withBelow reached .skipped s.withClause),uncounted (compoundBelow reached .skipped s.compound)]
  omega

mutual

theorem exprCounts (reached : Bool) : ∀ e,Counts (walkExpr highestVisited e) (exprMarks reached true e)
  | .literal _ | .column _ | .currentUser => countsNone (belowNil true false)
  | .parameter index => fun n => by
      show max n index = max n (max index 0)
      rw [Nat.max_zero]
  | .binary _ left right => (countsThen (exprCounts reached left) (exprCounts reached right) :)
  | .unary _ expr | .isNull expr _ | .paren expr | .cast expr _ => exprCounts reached expr
  | .inList expr values _ => (countsThen (exprCounts reached expr) (exprsCounts reached values) :)
  | .inSubquery expr ⟨withClause,distinct,items,source,joins,condition,groupBy,having',orderBy,limit,offset,compound⟩ _ =>
      (countsThen (exprCounts reached expr) (@countsSubquery ⟨withClause,distinct,items,source,joins,condition,groupBy,
        having',orderBy,limit,offset,compound⟩ _ (itemsCounts reached items) (optionCounts reached condition)) :)
  | .existsQuery query _ => countsNone (selectBelow reached .skipped query)
  | .scalarSubquery query => countsNone (selectBelow false .skipped query)
  | .between expr low high _ =>
      (countsThen (exprCounts reached expr) (countsThen (exprCounts reached low) (exprCounts reached high)) :)
  | .function _ args window => (countsThen (exprsCounts false args) (windowCounts window) :)

theorem exprsCounts (reached : Bool) : ∀ l,Counts (walkExprs highestVisited l) (exprsMarks reached true l)
  | [] => countsNone (belowNil true false)
  | e :: rest => (countsThen (exprCounts reached e) (exprsCounts reached rest) :)

theorem optionCounts (reached : Bool) : ∀ o,Counts (walkOption highestVisited o) (optionMarks reached true o)
  | none => countsNone (belowNil true false)
  | some e => exprCounts reached e

theorem windowCounts : ∀ window,Counts (walkWindow highestVisited window) (windowMarks true window)
  | none => countsNone (belowNil true false)
  | some ⟨partitionBy,orderBy,_⟩ => (countsThen (exprsCounts false partitionBy) (keysCounts orderBy) :)

theorem keysCounts : ∀ l,Counts (walkKeys highestVisited l) (keysMarks true l)
  | [] => countsNone (belowNil true false)
  | ⟨e,_⟩ :: rest => (countsThen (exprCounts false e) (keysCounts rest) :)

theorem itemsCounts (reached : Bool) : ∀ l,Counts (walkItems highestVisited l) (itemsMarks reached true l)
  | [] => countsNone (belowNil true false)
  | ⟨e,_⟩ :: rest => (countsThen (exprCounts reached e) (itemsCounts reached rest) :)

end

theorem countsBranch {walk s reached} (branch : Counts walk (compoundMarks reached .branch s.compound)) :
    Counts (fun n => walkOption highestVisited s.whereClause (walkItems highestVisited s.items (walk n)))
      (selectMarks reached .branch s) := by
  intro n
  rw [countsThen branch (countsThen (itemsCounts reached s.items) (optionCounts reached s.whereClause)) n,countedParts]
  simp only [highestCountedAppend,ne_eq,reduceCtorEq,not_false_eq_true,decide_true,if_true,if_false,
    uncounted (withBelow reached .skipped s.withClause)]
  omega

theorem branchCounts (reached : Bool) : ∀ s,Counts (walkSelectStmt highestVisited s) (selectMarks reached .branch s)
  | ⟨withClause,distinct,items,source,joins,condition,groupBy,having',orderBy,limit,offset,none⟩ =>
      @countsBranch _ ⟨withClause,distinct,items,source,joins,condition,groupBy,having',orderBy,limit,offset,none⟩ reached
        (countsNone (belowNil true false))
  | ⟨withClause,distinct,items,source,joins,condition,groupBy,having',orderBy,limit,offset,some ⟨op,all,right⟩⟩ =>
      @countsBranch _ ⟨withClause,distinct,items,source,joins,condition,groupBy,having',orderBy,limit,offset,
        some ⟨op,all,right⟩⟩ reached (branchCounts reached right)

theorem walkCtesCounts : ∀ l,Counts (walkCtes highestVisited l) (ctesMarks true .branch l)
  | [] => countsNone (belowNil true false)
  | ⟨_,.select query⟩ :: rest => (countsThen (branchCounts true query) (walkCtesCounts rest) :)
  | ⟨_,.union anchor _ recursive⟩ :: rest =>
      (countsThen (branchCounts true anchor) (countsThen (branchCounts true recursive) (walkCtesCounts rest)) :)

theorem maxParamCounted (stmt : SelectStmt) : maxParamIndex (.select stmt) = highestCounted (statementMarks stmt) := by
  have later := countsThen (itemsCounts true stmt.items) (optionCounts true stmt.whereClause)
  have whole : maxParamIndex (.select stmt) = max 0 (highestCounted (withMarks true .branch stmt.withClause ++
      (itemsMarks true true stmt.items ++ optionMarks true true stmt.whereClause))) := by
    simp only [maxParamIndex,walkStmt]
    cases stmt.withClause with
    | none => exact later 0
    | some clause =>
      obtain ⟨_,ctes⟩ := clause
      exact countsThen (walkCtesCounts ctes) later 0
  rw [whole,statementMarks,countedParts]
  simp only [highestCountedAppend,ne_eq,reduceCtorEq,not_false_eq_true,decide_true,if_true,if_false,
    uncounted (compoundBelow true .skipped stmt.compound)]
  omega

theorem leHighest (mem : n ∈ indices) : n ≤ highest indices := by
  induction indices with
  | nil => cases mem
  | cons _ _ ih =>
    rcases mem_cons.mp mem with rfl | mem
    · exact le_max_left _ _
    · exact le_max_of_le_right (ih mem)

theorem highestAttained (indices) : highest indices = 0 ∨ highest indices ∈ indices := by
  induction indices with
  | nil => exact .inl rfl
  | cons m rest ih =>
    rw [highest,foldr_cons]
    rcases max_choice m (rest.foldr max 0) with same | same <;> rw [same]
    · exact .inr mem_cons_self
    · exact ih.imp_right (mem_cons_of_mem m)

def highestIndex (stmt : SelectStmt) : Nat := highest ((statementMarks stmt).map Mark.index)

theorem countedLe (stmt) : highestCounted (statementMarks stmt) ≤ highestIndex stmt := by
  rcases highestAttained (((statementMarks stmt).filter Mark.counted).map Mark.index) with zero | mem
  · exact le_of_eq_of_le zero (Nat.zero_le _)
  · obtain ⟨m,inside,same⟩ := mem_map.mp mem
    rw [highestCounted,← same]
    exact leHighest (mem_map.mpr ⟨m,mem_of_mem_filter inside,rfl⟩)

structure Complete (stmt : SelectStmt) (params : List Literal) : Prop where
  replaced : ∀ result,bindParameters (.select stmt) params = .ok result → ∃ query,result = .select query ∧
    statementMarks query = [] ∧ query = replaceSelect (bound params) stmt ∧
      ∀ m ∈ statementMarks stmt,1 ≤ m.index ∧ m.index ≤ params.length
  accepted : (∃ result,bindParameters (.select stmt) params = .ok result) ↔ params.length = highestIndex stmt

structure Bindable (stmt : SelectStmt) : Prop where
  reached : ∀ m ∈ statementMarks stmt,m.reached = true
  numbered : ∀ m ∈ statementMarks stmt,1 ≤ m.index ∧ m.index < 65535
  counted : ∀ m ∈ statementMarks stmt,∃ other ∈ statementMarks stmt,other.counted = true ∧ m.index ≤ other.index

theorem bindOk : bindParameters (.select stmt) params = .ok result ↔
      clamped params.length = highestCounted (statementMarks stmt) ∧ result = .select (substituteSelect params stmt) := by
  unfold bindParameters
  rw [maxParamCounted]
  constructor
  · intro ok
    split at ok
    · cases ok
    · rename_i same
      exact ⟨not_not.mp same,(Except.ok.inj ok).symm⟩
  · rintro ⟨same,rfl⟩
    exact if_neg (not_not.mpr same)

theorem bindSome : (∃ result,bindParameters (.select stmt) params = .ok result) ↔
    clamped params.length = highestCounted (statementMarks stmt) := by
  simp [bindOk]

theorem completeBindable (complete : ∀ params,Complete stmt params) : Bindable stmt := by
  have length : ∀ n, (List.replicate n Literal.null).length = n := fun n => length_replicate
  have agree : ∀ n,clamped n = highestCounted (statementMarks stmt) ↔ n = highestIndex stmt := by
    intro n
    have accepted := (complete (List.replicate n .null)).accepted
    rwa [bindSome,length] at accepted
  have small : highestIndex stmt < 65535 := by
    by_contra large
    have exact' := (agree (highestIndex stmt)).mpr rfl
    have above := (agree (highestIndex stmt+2^16)).mp
    unfold clamped at exact' above
    split at exact' <;> split at above <;> omega
  have same : highestCounted (statementMarks stmt) = highestIndex stmt := by
    have exact' := (agree (highestIndex stmt)).mpr rfl
    rwa [clamped,if_pos (by omega),eq_comm] at exact'
  obtain ⟨_,result,none,replaced,indices⟩ := (complete (List.replicate (highestIndex stmt) .null)).replaced _
    (bindOk.mpr ⟨by rw [length,(agree _).mpr rfl],rfl⟩)
  cases result
  rw [statementMarks,selectLeft] at none
  refine ⟨fun m mem => ?_,fun m mem => ?_,fun m mem => ?_⟩
  · simpa using filter_eq_nil_iff.mp none m mem
  · have range := indices m mem
    rw [length] at range
    omega
  · have below : m.index ≤ highestIndex stmt := leHighest (mem_map_of_mem mem)
    rw [← same] at below
    rcases highestAttained (((statementMarks stmt).filter Mark.counted).map Mark.index) with zero | attained
    · have range := (indices m mem).1
      have none : highestCounted (statementMarks stmt) = 0 := zero
      omega
    · obtain ⟨other,inside,index⟩ := mem_map.mp attained
      obtain ⟨inside,counted⟩ := mem_filter.mp inside
      exact ⟨other,inside,counted,below.trans (le_of_eq index.symm)⟩

theorem bindableHighest (bindable : Bindable stmt) :
    highestCounted (statementMarks stmt) = highestIndex stmt ∧ highestIndex stmt < 65535 := by
  rcases highestAttained ((statementMarks stmt).map Mark.index) with zero | attained
  · have index : highestIndex stmt = 0 := zero
    have below := countedLe stmt
    omega
  · obtain ⟨m,mem,index⟩ := mem_map.mp attained
    have range := bindable.numbered m mem
    obtain ⟨other,inside,counted,_⟩ := bindable.counted m mem
    have reaches : other.index ≤ highestCounted (statementMarks stmt) :=
      leHighest (mem_map.mpr ⟨other,mem_filter.mpr ⟨inside,counted⟩,rfl⟩)
    have below := countedLe stmt
    have whole : m.index = highestIndex stmt := index
    omega

theorem bindCompleteIff (stmt : SelectStmt) : (∀ params,Complete stmt params) ↔ Bindable stmt := by
  refine ⟨completeBindable,fun bindable params => ⟨fun result ok => ?_,?_⟩⟩
  · obtain ⟨same,rfl⟩ := bindOk.mp ok
    obtain ⟨count,small⟩ := bindableHighest bindable
    have none : statementMarks (substituteSelect params stmt) = [] := by
      rw [statementMarks,selectLeft]
      exact filter_eq_nil_iff.mpr fun m mem => by simp [bindable.reached m mem]
    refine ⟨_,rfl,none,(selectKept _ none).symm.trans (selectAgain params _),fun m mem => ?_⟩
    have below : m.index ≤ highestIndex stmt := leHighest (mem_map_of_mem mem)
    have range := bindable.numbered m mem
    unfold clamped at same
    split at same <;> omega
  · obtain ⟨count,_⟩ := bindableHighest bindable
    rw [bindSome,count,clamped]
    split <;> omega

/- SELECT UPPER($1) -/
def upperOfFirst : SelectStmt :=
  ⟨none,false,[⟨.function "UPPER" [.parameter 1] none,none⟩],none,[],none,[],none,[],none,none,none⟩

/- Bound to one value the query still has its parameter. -/
theorem functionArgumentUnbound : bindParameters (.select upperOfFirst) [.string "x"] = .ok (.select upperOfFirst) ∧
      statementMarks upperOfFirst = [⟨1,false,true⟩] := ⟨rfl,rfl⟩

end NoeDB.ParameterBinding
