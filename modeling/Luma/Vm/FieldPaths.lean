-- SUMMARY: Chains of field accesses on a local, a captured and a global variable, and when all of them do the same.
import Luma.Library.Scanning
import Luma.Protocol.Transport
import Luma.Value.Dictionary

/-! # Field paths

A chain of field accesses on a local or captured variable is compiled link by link. On a
global one it is a single name with dots, as if it named the member of a module; where no
global has that name the fields are read one after the other, without a trace of which links
were optional. -/

namespace Luma.FieldPaths

open Codec

/-! ## Compilation -/

/-- A chain of field accesses on a variable. -/
inductive FieldPath where
  | root (name : Bytes)
  | access (object : FieldPath) (fieldName : Bytes) (isOptional : Bool)

inductive Op where
  | getLocal (slot : Nat)
  | getUpvalue (index : Nat)
  | getGlobal (name : Bytes)
  | getField (name : Bytes)
  | getFieldOpt (name : Bytes)

/-- What the compiler knows about the names of a function. -/
structure Scope where
  resolveLocal : Bytes → Option Nat
  resolveUpvalue : Bytes → Option Nat

def dot : UInt8 := 46

namespace FieldPath

def rootName : FieldPath → Bytes
  | root name => name
  | access object _ _ => object.rootName

/-- The names of a path, the last one first. -/
def parts : FieldPath → List Bytes
  | root name => [name]
  | access object fieldName _ => fieldName :: object.parts

/-- The names with dots between them. -/
def qualified (path : FieldPath) : Bytes := [dot].intercalate path.parts.reverse

/-- Only a root that is not a variable of the function makes a dotted name. -/
def compileQualifiedModuleAccess (scope : Scope) (path : FieldPath) : Option (List Op) :=
  if (scope.resolveLocal path.rootName).isSome || (scope.resolveUpvalue path.rootName).isSome then none
  else some [.getGlobal path.qualified]

def compile (scope : Scope) : FieldPath → List Op
  | root name =>
    match scope.resolveLocal name with
    | some slot => [.getLocal slot]
    | none =>
      match scope.resolveUpvalue name with
      | some index => [.getUpvalue index]
      | none => [.getGlobal name]
  | access object fieldName isOptional =>
    match compileQualifiedModuleAccess scope (access object fieldName isOptional) with
    | some code => code
    | none => object.compile scope ++ [if isOptional then .getFieldOpt fieldName else .getField fieldName]

end FieldPath

/-! ## Execution -/

inductive FieldError where
  | undefinedVariable (name : Bytes)
  | accessDenied (name : Bytes)
  | recordNoField (field : Bytes)
  | cannotAccessFieldOnChoice (field typeName : Bytes)
  | invalidTupleIndex (field : Bytes)
  | tupleIndexOutOfRange (index : Nat)
  | cannotAccessFieldOn (field : Bytes) (typeName : String)
  | invalidSlot
  | stackUnderflow
  deriving DecidableEq

def findField (fields : List (Bytes × Value)) (name : Bytes) : Option Value :=
  (fields.find? fun field => field.1 == name).map (·.2)

/-- The field that `GetField` pushes. -/
def pushField (obj : Value) (fieldName : Bytes) : Except FieldError Value :=
  match obj with
  | .record _ fields =>
    match findField fields fieldName with
    | some val => .ok val
    | none => .error (.recordNoField fieldName)
  | .choice typeName _ _ => .error (.cannotAccessFieldOnChoice fieldName typeName)
  | .tuple elements =>
    match if fieldName.isEmpty then none else Protocol.fromChars fieldName with
    | none => .error (.invalidTupleIndex fieldName)
    | some index =>
      match elements[index]? with
      | some val => .ok val
      | none => .error (.tupleIndexOutOfRange index)
  | other => .error (.cannotAccessFieldOn fieldName other.displayTypeName)

/-- The field that `GetFieldOpt` pushes. -/
def pushFieldOpt (obj : Value) (fieldName : Bytes) : Value :=
  match obj with
  | .null => .null
  | .record _ fields => (findField fields fieldName).getD .null
  | _ => .null

structure Frame where
  locals : List Value
  upvalues : List Value
  globals : List (Bytes × Value)
  /-- The names that the sandbox denies. -/
  denied : Bytes → Bool

def Frame.lookupGlobal (frame : Frame) (name : Bytes) : Option Value := findField frame.globals name

/-- The fields of a value one after the other. -/
def pushFields (obj : Value) (fields : List Bytes) : Except FieldError Value := fields.foldlM pushField obj

def pushGlobalFieldPath (frame : Frame) (qualifiedName : Bytes) : Option (Except FieldError Value) :=
  match Scanning.splitFirst dot qualifiedName with
  | none => none
  | some (root, fields) => (frame.lookupGlobal root).map fun value => pushFields value (fields.splitOn dot)

def handleGetGlobal (frame : Frame) (name : Bytes) : Except FieldError Value :=
  match frame.lookupGlobal name with
  | some value => .ok value
  | none =>
    if frame.denied name then .error (.accessDenied name)
    else (pushGlobalFieldPath frame name).getD (.error (.undefinedVariable name))

def step (frame : Frame) (stack : List Value) : Op → Except FieldError (List Value)
  | .getLocal slot =>
    match frame.locals[slot]? with
    | some value => .ok (value :: stack)
    | none => .error .invalidSlot
  | .getUpvalue index =>
    match frame.upvalues[index]? with
    | some value => .ok (value :: stack)
    | none => .error .invalidSlot
  | .getGlobal name => (handleGetGlobal frame name).map (· :: stack)
  | .getField name =>
    match stack with
    | obj :: stack => (pushField obj name).map (· :: stack)
    | [] => .error .stackUnderflow
  | .getFieldOpt name =>
    match stack with
    | obj :: stack => .ok (pushFieldOpt obj name :: stack)
    | [] => .error .stackUnderflow

def run (frame : Frame) (code : List Op) (stack : List Value) : Except FieldError (List Value) := code.foldlM (step frame) stack

/-! ## Where a variable lives -/

/-- A link of a chain: `.name` or `?.name`. -/
structure Link where
  name : Bytes
  isOptional : Bool

/-- A function with its frame. -/
structure Site where
  scope : Scope
  frame : Frame

inductive Place where
  | localVariable
  | captured
  | globalVariable

def chain (name : Bytes) (links : List Link) : FieldPath :=
  links.foldl (fun object link => .access object link.name link.isOptional) (.root name)

/-- A variable with a value, at a place. -/
def Site.Holds (site : Site) (name : Bytes) (v : Value) : Place → Prop
  | .localVariable => ∃ slot, site.scope.resolveLocal name = some slot ∧ site.frame.locals[slot]? = some v
  | .captured => site.scope.resolveLocal name = none ∧
      ∃ index, site.scope.resolveUpvalue name = some index ∧ site.frame.upvalues[index]? = some v
  | .globalVariable => site.scope.resolveLocal name = none ∧ site.scope.resolveUpvalue name = none ∧
      site.frame.lookupGlobal name = some v

def Site.outcome (site : Site) (path : FieldPath) : Except FieldError (List Value) :=
  run site.frame (path.compile site.scope) []

/-- Wherever the variable lives, a chain on it has one outcome, and it reads no member of the dotted name. -/
def Independent (globals : List (Bytes × Value)) (denied : Bytes → Bool) (name : Bytes) (links : List Link) (v : Value) : Prop :=
  ∀ (site site' : Site) (place place' : Place), site.frame.globals = globals → site'.frame.globals = globals →
    site.frame.denied = denied → site'.frame.denied = denied → site.Holds name v place → site'.Holds name v place' →
      site.outcome (chain name links) = site'.outcome (chain name links) ∧ findField globals (chain name links).qualified = none

/-! ## Links one after the other -/

def followLink (obj : Value) (link : Link) : Except FieldError Value :=
  if link.isOptional then .ok (pushFieldOpt obj link.name) else pushField obj link.name

def followLinks (obj : Value) (links : List Link) : Except FieldError Value := links.foldlM followLink obj

section Compiled

variable {site : Site} {name : Bytes} {links : List Link} {v : Value}

theorem rootName_chain (name : Bytes) (links : List Link) : (chain name links).rootName = name := by
  induction links using List.reverseRecOn with
  | nil => rfl
  | append_singleton links link ih =>
    rw [chain, List.foldl_append]
    exact ih

theorem parts_chain (name : Bytes) (links : List Link) : (chain name links).parts.reverse = name :: links.map (·.name) := by
  induction links using List.reverseRecOn with
  | nil => rfl
  | append_singleton links link ih =>
    have hparts : (chain name (links ++ [link])).parts = link.name :: (chain name links).parts := by
      rw [chain, List.foldl_append]
      rfl
    rw [hparts, List.reverse_cons, ih, List.map_append]
    rfl

theorem compile_access {scope : Scope} {object : FieldPath} {fieldName : Bytes} {isOptional : Bool}
    (h : FieldPath.compileQualifiedModuleAccess scope (.access object fieldName isOptional) = none) :
    (FieldPath.access object fieldName isOptional).compile scope =
      object.compile scope ++ [if isOptional then .getFieldOpt fieldName else .getField fieldName] := by
  rw [FieldPath.compile, h]

/-- On a variable of the function the links are compiled one by one. -/
theorem compile_chain_own (h : (site.scope.resolveLocal name).isSome || (site.scope.resolveUpvalue name).isSome) :
    (chain name links).compile site.scope = (FieldPath.root name).compile site.scope ++
      links.map fun link => if link.isOptional then .getFieldOpt link.name else .getField link.name := by
  induction links using List.reverseRecOn with
  | nil => exact (List.append_nil _).symm
  | append_singleton links link ih =>
    have haccess : chain name (links ++ [link]) = .access (chain name links) link.name link.isOptional := by
      rw [chain, List.foldl_append]
      rfl
    have hown : FieldPath.compileQualifiedModuleAccess site.scope (.access (chain name links) link.name link.isOptional) = none := by
      rw [FieldPath.compileQualifiedModuleAccess, FieldPath.rootName, rootName_chain, if_pos h]
    rw [haccess, compile_access hown, List.map_append, ← List.append_assoc, ← ih]
    rfl

/-- On any other variable the chain is one name. -/
theorem compile_chain_global (hlocal : site.scope.resolveLocal name = none) (hupvalue : site.scope.resolveUpvalue name = none)
    (hlinks : links ≠ []) : (chain name links).compile site.scope = [.getGlobal (chain name links).qualified] := by
  induction links using List.reverseRecOn with
  | nil => exact absurd rfl hlinks
  | append_singleton links link _ =>
    have haccess : chain name (links ++ [link]) = .access (chain name links) link.name link.isOptional := by
      rw [chain, List.foldl_append]
      rfl
    have hname : FieldPath.compileQualifiedModuleAccess site.scope (.access (chain name links) link.name link.isOptional) =
        some [.getGlobal (FieldPath.access (chain name links) link.name link.isOptional).qualified] := by
      rw [FieldPath.compileQualifiedModuleAccess, FieldPath.rootName, rootName_chain, hlocal, hupvalue]
      rfl
    rw [haccess, FieldPath.compile, hname]

theorem run_links (frame : Frame) (obj : Value) (links : List Link) :
    run frame (links.map fun link => if link.isOptional then .getFieldOpt link.name else .getField link.name) [obj] =
      (followLinks obj links).map fun value => [value] := by
  induction links generalizing obj with
  | nil => rfl
  | cons link links ih =>
    have hstep : step frame [obj] (if link.isOptional then .getFieldOpt link.name else .getField link.name) =
        (followLink obj link).map fun value => [value] := by
      rw [followLink]
      cases link.isOptional with
      | false => rfl
      | true => rfl
    rw [run, List.map_cons, List.foldlM_cons, hstep, followLinks, List.foldlM_cons]
    cases followLink obj link with
    | error e => rfl
    | ok value => exact ih value

theorem outcome_own {place : Place} (hplace : place ≠ .globalVariable) (h : site.Holds name v place) :
    site.outcome (chain name links) = (followLinks v links).map fun value => [value] := by
  cases place with
  | localVariable =>
    obtain ⟨slot, hslot, hvalue⟩ := h
    rw [Site.outcome, compile_chain_own (by rw [hslot]; rfl), FieldPath.compile, hslot, ← run_links site.frame, run, run,
      List.cons_append, List.foldlM_cons, step, hvalue]
    rfl
  | captured =>
    obtain ⟨hlocal, index, hindex, hvalue⟩ := h
    rw [Site.outcome, compile_chain_own (by rw [hindex, hlocal]; rfl), FieldPath.compile, hlocal, hindex, ← run_links site.frame,
      run, run, List.cons_append, List.foldlM_cons, step, hvalue]
    rfl
  | globalVariable => exact absurd rfl hplace

theorem qualified_chain (name : Bytes) (link : Link) (links : List Link) :
    (chain name (link :: links)).qualified = name ++ dot :: [dot].intercalate (link.name :: links.map (·.name)) := by
  rw [FieldPath.qualified, parts_chain, List.map_cons, List.intercalate_cons_cons, List.append_assoc]
  rfl

theorem pushGlobalFieldPath_chain (frame : Frame) (hname : dot ∉ name) (hlinks : links ≠ []) (hnames : ∀ link ∈ links, dot ∉ link.name) :
    pushGlobalFieldPath frame (chain name links).qualified =
      (frame.lookupGlobal name).map fun value => pushFields value (links.map (·.name)) := by
  obtain ⟨link, links, rfl⟩ := List.exists_cons_of_ne_nil hlinks
  have hfree : ∀ part ∈ link.name :: links.map (·.name), dot ∉ part := by
    rw [← List.map_cons, List.forall_mem_map]
    exact hnames
  have hsplit : ([dot].intercalate (link.name :: links.map (·.name))).splitOn dot = link.name :: links.map (·.name) :=
    List.splitOn_intercalate dot hfree (List.cons_ne_nil _ _)
  rw [pushGlobalFieldPath, qualified_chain, Scanning.splitFirst_append hname]
  simp only [hsplit, List.map_cons]

theorem outcome_global (hlinks : links ≠ []) (h : site.Holds name v .globalVariable) :
    site.outcome (chain name links) = (handleGetGlobal site.frame (chain name links).qualified).map fun value => [value] := by
  obtain ⟨hlocal, hupvalue, -⟩ := h
  rw [Site.outcome, compile_chain_global hlocal hupvalue hlinks, run, List.foldlM_cons, step]
  cases handleGetGlobal site.frame (chain name links).qualified with
  | error e => rfl
  | ok value => rfl

end Compiled

/-! ## Links that could as well be plain -/

/-- The first plain link. -/
def firstPlain (links : List Link) : Option Bytes := (links.find? fun link => !link.isOptional).map (·.name)

/-- Along the names a value has `none`: at their end, or before the name that is given. -/
def NoneAlong (stop : Option Bytes) : Value → List Bytes → Prop
  | v, [] => v = .null ∧ stop = none
  | v, name :: names => (v = .null ∧ stop = some name) ∨ ∃ w, pushField v name = .ok w ∧ NoneAlong stop w names

/-- The field of a record. -/
def recordField : Value → Bytes → Option Value
  | .record _ fields, name => findField fields name
  | _, _ => none

/-- Every optional link finds a record with the field, or what follows it comes to the same `none`. -/
def Harmless : Value → List Link → Prop
  | _, [] => True
  | v, link :: links =>
    match recordField v link.name with
    | some w => Harmless w links
    | none =>
      if link.isOptional then NoneAlong (firstPlain links) v (link.name :: links.map (·.name))
      else ∀ w, pushField v link.name = .ok w → Harmless w links

section Links

variable {v w : Value} {name : Bytes} {link : Link} {links : List Link} {names : List Bytes}

theorem displayTypeName_eq_none (h : v.displayTypeName = "none") (hrecord : ∀ typeName fields, v ≠ .record typeName fields)
    (hchoice : ∀ typeName variant fields, v ≠ .choice typeName variant fields) : v = .null := by
  cases v with
  | null => rfl
  | record typeName fields => exact absurd rfl (hrecord typeName fields)
  | choice typeName variant fields => exact absurd rfl (hchoice typeName variant fields)
  | _ => simp [Value.displayTypeName] at h

/-- Only on `none` itself a field is missing because of `none`. -/
theorem pushField_none_iff {stop : Bytes} :
    pushField v name = .error (.cannotAccessFieldOn stop "none") ↔ v = .null ∧ stop = name := by
  constructor
  · intro h
    rw [pushField.eq_def] at h
    split at h
    next fields =>
      split at h
      · cases h
      · cases h
    · cases h
    next elements =>
      split at h
      · cases h
      · split at h
        · cases h
        · cases h
    next hrecord hchoice _ =>
      injection h with h
      injection h with hname htype
      exact ⟨displayTypeName_eq_none htype hrecord hchoice, hname.symm⟩
  · rintro ⟨rfl, rfl⟩
    rfl

theorem followLinks_null (links : List Link) :
    followLinks .null links =
      match firstPlain links with
      | none => .ok .null
      | some stop => .error (.cannotAccessFieldOn stop "none") := by
  induction links with
  | nil => rfl
  | cons link links ih =>
    rw [followLinks, List.foldlM_cons, followLink, firstPlain, List.find?_cons]
    cases link.isOptional with
    | false => rfl
    | true => exact ih

/-- The names lead to the same `none` as the links behind it. -/
theorem pushFields_eq_null_iff : pushFields v names = followLinks .null links ↔ NoneAlong (firstPlain links) v names := by
  rw [followLinks_null]
  induction names generalizing v with
  | nil =>
    rw [NoneAlong]
    cases firstPlain links with
    | none =>
      constructor
      · intro h
        exact ⟨Except.ok.inj h, rfl⟩
      · rintro ⟨rfl, -⟩
        rfl
    | some stop =>
      constructor
      · intro h
        cases h
      · rintro ⟨-, hstop⟩
        cases hstop
  | cons name names ih =>
    have hcons : pushFields v (name :: names) = (pushField v name).bind fun w => pushFields w names := rfl
    rw [NoneAlong, hcons]
    cases hfield : pushField v name with
    | ok w =>
      rw [Except.bind, ih]
      constructor
      · exact fun h => .inr ⟨w, rfl, h⟩
      · rintro (⟨rfl, -⟩ | ⟨w', hw', h⟩)
        · cases hfield
        · cases hw'
          exact h
    | error e =>
      rw [Except.bind]
      cases hstop : firstPlain links with
      | none =>
        constructor
        · intro h
          cases h
        · rintro (⟨-, h⟩ | ⟨w', hw', -⟩)
          · cases h
          · cases hw'
      | some stop =>
        constructor
        · intro h
          rw [← hfield] at h
          obtain ⟨hnull, hsame⟩ := pushField_none_iff.mp h
          exact .inl ⟨hnull, congrArg some hsame⟩
        · rintro (⟨hnull, hsame⟩ | ⟨w', hw', -⟩)
          · rw [← hfield]
            exact pushField_none_iff.mpr ⟨hnull, Option.some.inj hsame⟩
          · cases hw'

theorem pushField_of_recordField (h : recordField v name = some w) : pushField v name = .ok w ∧ pushFieldOpt v name = w := by
  cases v with
  | record typeName fields =>
    have hfind : findField fields name = some w := h
    rw [pushField, pushFieldOpt, hfind]
    exact ⟨rfl, rfl⟩
  | _ => cases h

theorem pushFieldOpt_of_not_recordField (h : recordField v name = none) : pushFieldOpt v name = .null := by
  cases v with
  | record typeName fields =>
    have hfind : findField fields name = none := h
    rw [pushFieldOpt, hfind]
    rfl
  | _ => rfl

/-- Reading the links as if they were plain comes to the same just if that is harmless. -/
theorem pushFields_eq_followLinks_iff : pushFields v (links.map (·.name)) = followLinks v links ↔ Harmless v links := by
  induction links generalizing v with
  | nil => exact ⟨fun _ => trivial, fun _ => rfl⟩
  | cons link links ih =>
    have hnames : pushFields v ((link :: links).map (·.name)) =
        (pushField v link.name).bind fun w => pushFields w (links.map (·.name)) := rfl
    have hlinks : followLinks v (link :: links) = (followLink v link).bind fun w => followLinks w links := rfl
    rw [Harmless]
    cases hrecord : recordField v link.name with
    | some w =>
      obtain ⟨hplain, hoptional⟩ := pushField_of_recordField hrecord
      have hlink : followLink v link = .ok w := by
        rw [followLink, hplain, hoptional]
        exact ite_self _
      rw [hnames, hlinks, hplain, hlink]
      exact ih
    | none =>
      cases hopt : link.isOptional with
      | true =>
        have hlink : followLink v link = .ok .null := by
          rw [followLink, hopt, if_pos rfl, pushFieldOpt_of_not_recordField hrecord]
        rw [hlinks, hlink, if_pos rfl]
        exact pushFields_eq_null_iff
      | false =>
        have hlink : followLink v link = pushField v link.name := by
          rw [followLink, hopt, if_neg Bool.false_ne_true]
        rw [hnames, hlinks, hlink, if_neg Bool.false_ne_true]
        cases pushField v link.name with
        | error e =>
          constructor
          · intro _ w hw
            cases hw
          · exact fun _ => rfl
        | ok w =>
          constructor
          · intro h w' hw'
            cases hw'
            exact ih.mp h
          · exact fun h => ih.mpr (h w rfl)

theorem pushField_ne_denied {denied : Bytes} : pushField v name ≠ .error (.accessDenied denied) := by
  intro h
  rw [pushField.eq_def] at h
  split at h
  · split at h
    · cases h
    · cases h
  · cases h
  · split at h
    · cases h
    · split at h
      · cases h
      · cases h
  · cases h

/-- The links never fail with an error of the sandbox. -/
theorem followLinks_ne_denied {denied : Bytes} : followLinks v links ≠ .error (.accessDenied denied) := by
  induction links generalizing v with
  | nil =>
    intro h
    cases h
  | cons link links ih =>
    have hlinks : followLinks v (link :: links) = (followLink v link).bind fun w => followLinks w links := rfl
    rw [hlinks]
    cases hlink : followLink v link with
    | ok w => exact ih
    | error e =>
      rw [followLink] at hlink
      split at hlink
      · cases hlink
      · intro h
        cases h
        exact pushField_ne_denied hlink

end Links

/-! ## The same everywhere -/

section Places

variable {globals : List (Bytes × Value)} {denied : Bytes → Bool} {name : Bytes} {links : List Link} {v : Value}

/-- A function whose first local variable has the name. -/
def localSite (globals : List (Bytes × Value)) (denied : Bytes → Bool) (v : Value) : Site where
  scope := { resolveLocal := fun _ => some 0, resolveUpvalue := fun _ => none }
  frame := { locals := [v], upvalues := [], globals := globals, denied := denied }

/-- A function that has no variables. -/
def globalSite (globals : List (Bytes × Value)) (denied : Bytes → Bool) : Site where
  scope := { resolveLocal := fun _ => none, resolveUpvalue := fun _ => none }
  frame := { locals := [], upvalues := [], globals := globals, denied := denied }

theorem handleGetGlobal_chain {frame : Frame} (hlinks : links ≠ []) (hname : dot ∉ name) (hnames : ∀ link ∈ links, dot ∉ link.name)
    (hvalue : frame.lookupGlobal name = some v) (hmember : frame.lookupGlobal (chain name links).qualified = none)
    (hdenied : frame.denied (chain name links).qualified = false) :
    handleGetGlobal frame (chain name links).qualified = pushFields v (links.map (·.name)) := by
  rw [handleGetGlobal, hmember, pushGlobalFieldPath_chain frame hname hlinks hnames, hvalue, hdenied]
  rfl

/-- All places agree where the dotted name is nothing by itself and the optional links are harmless. -/
theorem outcome_eq {site : Site} {place : Place} (hlinks : links ≠ []) (hname : dot ∉ name) (hnames : ∀ link ∈ links, dot ∉ link.name)
    (hmember : findField site.frame.globals (chain name links).qualified = none)
    (hdenied : site.frame.denied (chain name links).qualified = false) (hharmless : Harmless v links)
    (h : site.Holds name v place) : site.outcome (chain name links) = (followLinks v links).map fun value => [value] := by
  cases place with
  | localVariable => exact outcome_own (fun hplace => Place.noConfusion hplace) h
  | captured => exact outcome_own (fun hplace => Place.noConfusion hplace) h
  | globalVariable =>
    rw [outcome_global hlinks h, handleGetGlobal_chain hlinks hname hnames h.2.2 hmember hdenied,
      pushFields_eq_followLinks_iff.mpr hharmless]

theorem map_singleton_injective {x y : Except FieldError Value}
    (h : (x.map fun value => [value]) = y.map fun value => [value]) : x = y := by
  cases x with
  | error e =>
    cases y with
    | error e' =>
      cases h
      rfl
    | ok b => cases h
  | ok a =>
    cases y with
    | error e' => cases h
    | ok b =>
      cases h
      rfl

/-- A chain of field accesses means the same wherever its variable lives just if no global and no rule of the
sandbox has its dotted name, and none of its optional links matters. -/
theorem independent_iff (hlinks : links ≠ []) (hname : dot ∉ name) (hnames : ∀ link ∈ links, dot ∉ link.name)
    (hvalue : findField globals name = some v) :
    Independent globals denied name links v ↔
      findField globals (chain name links).qualified = none ∧ denied (chain name links).qualified = false ∧ Harmless v links := by
  constructor
  · intro h
    have hlocal : (localSite globals denied v).Holds name v .localVariable := ⟨0, rfl, rfl⟩
    have hglobal : (globalSite globals denied).Holds name v .globalVariable := ⟨rfl, rfl, hvalue⟩
    obtain ⟨hsame, hmember⟩ := h _ _ _ _ rfl rfl rfl rfl hlocal hglobal
    rw [outcome_own (fun hplace => Place.noConfusion hplace) hlocal, outcome_global hlinks hglobal] at hsame
    have hsame := map_singleton_injective hsame
    have hlookup : (globalSite globals denied).frame.lookupGlobal (chain name links).qualified = none := hmember
    have hdenied : denied (chain name links).qualified = false := by
      by_contra hdenied
      have hrule : (globalSite globals denied).frame.denied (chain name links).qualified = true := Bool.not_eq_false _ ▸ hdenied
      rw [handleGetGlobal, hlookup] at hsame
      simp only [hrule, if_true] at hsame
      exact followLinks_ne_denied hsame
    refine ⟨hmember, hdenied, pushFields_eq_followLinks_iff.mp ?_⟩
    have hroot : (globalSite globals denied).frame.lookupGlobal name = some v := hvalue
    rw [hsame, handleGetGlobal_chain hlinks hname hnames hroot hlookup hdenied]
  · rintro ⟨hmember, hdenied, hharmless⟩ site site' place place' rfl hglobals rfl hdenied' h h'
    rw [← hglobals] at hmember
    rw [← hdenied'] at hdenied
    refine ⟨?_, hglobals ▸ hmember⟩
    rw [outcome_eq hlinks hname hnames hmember hdenied hharmless h',
      outcome_eq hlinks hname hnames (hglobals ▸ hmember) (hdenied' ▸ hdenied) hharmless h]

end Places

/-- `a` and `x` -/
def nameA : Bytes := [97]
def nameX : Bytes := [120]

def optionalX : Link where
  name := nameX
  isOptional := true

/-- A record with the field `x`. -/
def recordWithX : Value := .record [82] [(nameX, .bool true)]

theorem independent_iff_record : Independent [(nameA, recordWithX)] (fun _ => false) nameA [optionalX] recordWithX :=
  (independent_iff (List.cons_ne_nil _ _) (by decide) (List.forall_mem_singleton.mpr (by decide)) rfl).mpr ⟨rfl, rfl, trivial⟩

/-- On a global `none` the optional link fails. -/
theorem optional_link_fails_on_global :
    ¬ Independent [(nameA, .null)] (fun _ => false) nameA [optionalX] .null := by
  intro h
  have hlocal : (localSite [(nameA, .null)] (fun _ => false) .null).Holds nameA .null .localVariable := ⟨0, rfl, rfl⟩
  have hglobal : (globalSite [(nameA, .null)] fun _ => false).Holds nameA .null .globalVariable := ⟨rfl, rfl, rfl⟩
  have hsame := (h _ _ _ _ rfl rfl rfl rfl hlocal hglobal).1
  have hok : (localSite [(nameA, .null)] (fun _ => false) .null).outcome (chain nameA [optionalX]) = .ok [.null] := rfl
  have herror : (globalSite [(nameA, .null)] fun _ => false).outcome (chain nameA [optionalX]) =
      .error (.cannotAccessFieldOn nameX "none") := by
    rw [outcome_global (List.cons_ne_nil _ _) hglobal,
      handleGetGlobal_chain (List.cons_ne_nil _ _) (by decide) (List.forall_mem_singleton.mpr (by decide)) rfl rfl rfl]
    rfl
  rw [hok, herror] at hsame
  cases hsame

end Luma.FieldPaths
