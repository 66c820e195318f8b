import Minilang.Typing.Error
import Minilang.Typing.Note

/-!
# Type definitions

The types that the declarations of a program define, and the types that type expressions stand for.
An alias stands for the type of its own expression, so aliases may refer to each other, in any
order, as long as none refers to itself.
-/

namespace Minilang.Typing

/-- A check may fail at a place. -/
abbrev Check := Except (Located TypeError)

/-- What a declared name of a type stands for. -/
inductive TypeName where
  /-- A structure or an enum. -/
  | defined
  | alias (name : Name) (type : TypeExpr)

/-- The declared types. -/
abbrev TypeNames := List (Bytes × TypeName)

section Resolve

variable {m : Type → Type} [Monad m]

mutual

/-- The type of a type expression, given how to find the type of a name. -/
def resolveWith (named : Span → Bytes → m Ty) : TypeExpr → m Ty
  | .named span name => named span name
  | .array _ elem => do return .array (← resolveWith named elem)
  | .func _ params result => do
    let ps ← resolveAllWith named params
    match result with
    | none => return .func ps .unit
    | some r => return .func ps (← resolveWith named r)

/-- The types of several type expressions, given how to find the type of a name. -/
def resolveAllWith (named : Span → Bytes → m Ty) : List TypeExpr → m (List Ty)
  | [] => return []
  | t :: ts => do
    let t' ← resolveWith named t
    return t' :: (← resolveAllWith named ts)

end

end Resolve

/-- The type of a name.  `visited` holds the aliases that are being followed; there are at most
`depth` others. -/
def resolveName (names : TypeNames) :
    (depth : Nat) → (visited : List Bytes) → Span → Bytes → Check Ty
  | depth, visited, span, name =>
    match Ty.primitive? name with
    | some t => .ok t
    | none =>
      match names.lookup name with
      | none => .error ⟨span, .undefinedType name⟩
      | some .defined => .ok (.named name)
      | some (.alias decl type) =>
        if name ∈ visited then .error ⟨decl.span, .recursiveAlias name⟩
        else match depth with
          | 0 => .error ⟨decl.span, .recursiveAlias name⟩
          | depth + 1 => resolveWith (resolveName names depth (name :: visited)) type

variable (names : TypeNames)

/-- The type that is written. -/
def resolve (t : TypeExpr) : Check Ty :=
  resolveWith (resolveName names names.length []) t

def resolveAll (ts : List TypeExpr) : Check (List Ty) :=
  resolveAllWith (resolveName names names.length []) ts

variable {α : Type}

def typeName? : Decl α → Option (Name × TypeName)
  | .func _ => none
  | .struct _ name _ | .enum _ name _ => some (name, .defined)
  | .alias _ name type => some (name, .alias name type)

def declareTypes (names : TypeNames) : List (Decl α) → Check TypeNames
  | [] => .ok names
  | d :: ds =>
    match typeName? d with
    | none => declareTypes names ds
    | some (name, t) =>
      if (Ty.primitive? name.text).isSome then
        .error ⟨name.span, .redefinedBuiltinType name.text⟩
      else if (names.lookup name.text).isSome then
        .error ⟨name.span, .redeclaredType name.text⟩
      else declareTypes (names ++ [(name.text, t)]) ds

def resolveFields (names : TypeNames) (struct : Bytes) (done : List (Bytes × Ty)) :
    List Param → Check (List (Bytes × Ty))
  | [] => .ok done
  | f :: fs => do
    if (done.lookup f.name.text).isSome then
      throw ⟨f.name.span, .duplicateField f.name.text struct⟩
    let t ← resolve names f.type
    resolveFields names struct (done ++ [(f.name.text, t)]) fs

def resolveVariants (names : TypeNames) (enum : Bytes) (done : List Variant) :
    List VariantDecl → Check (List Variant)
  | [] => .ok done
  | v :: vs => do
    if done.any fun w => w.name = v.name.text then
      throw ⟨v.name.span, .duplicateVariant v.name.text enum⟩
    let payload ← resolveAll names v.payload
    resolveVariants names enum (done ++ [⟨enum, v.name.text, payload⟩]) vs

def resolveDecl : Decl α → Check (Option TypeDef)
  | .func _ => .ok none
  | .struct _ name fields => do
    return some ⟨name.text, .struct (← resolveFields names name.text [] fields)⟩
  | .enum _ name variants => do
    return some ⟨name.text, .enum (← resolveVariants names name.text [] variants)⟩
  | .alias _ name _ => do
    return some ⟨name.text, .alias (← resolveName names names.length [] name.span name.text)⟩

def resolveDecls (names : TypeNames) (done : List TypeDef) : List (Decl α) → Check (List TypeDef)
  | [] => .ok done
  | d :: ds => do
    match ← resolveDecl names d with
    | none => resolveDecls names done ds
    | some t => resolveDecls names (done ++ [t]) ds

end Minilang.Typing
