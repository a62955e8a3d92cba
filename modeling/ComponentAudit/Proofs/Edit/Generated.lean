import ComponentAudit.Proofs.Assign.Structured
import ComponentAudit.Proofs.Edit.Growth
import ComponentAudit.Proofs.Flow.Passing

set_option autoImplicit false

/-! # Reading a generated builder function

What the analysis finds in a builder function that stands in its file as it was drawn
(`Blueprint.Placed`). The names in the block of its lambda mean the parameters of the function
(`Placed.lexical?_parameter`), so every parameter has a use (`Placed.unused_eq_nil`). The block is
straight-line: it has one run, which makes all the assignments (`Placed.passes_block`).

Main statements: `Placed.assigns`, `Placed.outdated?_eq_none` and `Placed.find?_handler`. Every
field is assigned from a parameter of its type, and the parameter for the children is found unless
a field has the type of a handler.
-/

namespace ComponentAudit

namespace Tree

variable {t : Tree}

/-! ## Parameters and assignments of fields -/

/-- Whether a node is a parameter with the name and the type of a field. -/
structure ParameterFor (t : Tree) (f : Field) (p : NodeId) : Prop where
  isParameter : (t.kind p).isParameter = true
  name_eq : t.name? p = f.name
  type_eq : t.writtenType? p = f.type

theorem ParameterFor.declaredType?_eq {f : Field} {p : NodeId} (h : t.ParameterFor f p) :
    t.declaredType? p = f.type := by
  have hp := h.isParameter
  rw [← h.type_eq, declaredType?]
  cases hk : t.kind p <;> simp_all [Kind.isParameter]

theorem writtenType?_of_annotates {p : NodeId} {k : Kind} {cs : List NodeId}
    {type : Option TypeExpr} (hp : t.Built p k cs) (h : t.Annotates type cs) :
    t.writtenType? p = type := by
  rw [writtenType?, typeRef?, child?, hp.children_eq]
  cases type with
  | none =>
      obtain rfl : cs = [] := h
      rfl
  | some type =>
      obtain ⟨r, rfl, hr⟩ := h
      simp [hr.kind_eq, Kind.isTypeRef, Kind.writtenType?]

theorem parameterFor_of_built {f : Field} {p : NodeId} {cs : List NodeId} {name : String}
    (hname : f.name = some name) (hp : t.Built p (.parameter name none) cs)
    (htype : t.Annotates f.type cs) : t.ParameterFor f p where
  isParameter := by
    rw [hp.kind_eq]
    rfl
  name_eq := by
    rw [name?, hp.kind_eq, hname]
    rfl
  type_eq := writtenType?_of_annotates hp htype

/-- Whether a node assigns a field, under its name, what has the same name. -/
def StoreFor (t : Tree) (attrs : String) (f : Field) (e : NodeId) : Prop :=
  ∃ name place r m v, f.name = some name ∧ t.StoreParts e attrs name name place r m v

namespace StoreParts

variable {e place r m v : NodeId} {receiver member value : String}
  (h : t.StoreParts e receiver member value place r m v)

include h

theorem operands?_eq : t.operands? e = some (place, v) := by
  simp [operands?, h.statement.kind_eq, h.statement.children_eq]

theorem operands?_place : t.operands? place = some (r, m) := by
  simp [operands?, h.place.kind_eq, h.place.children_eq]

theorem memberStore?_eq : t.memberStore? e = some (receiver, member) := by
  refine memberStore?_eq_some_iff.mpr ⟨h.statement.kind_eq, place, v, r, m, h.operands?_eq,
    h.place.kind_eq, h.operands?_place, ?_, ?_⟩
  · rw [referenceName?, h.receiver.kind_eq]
    rfl
  · rw [referenceName?, h.member.kind_eq]
    rfl

theorem form_eq (u : Usage) : t.form u e = .store := by
  cases u <;> simp [form, h.statement.kind_eq, h.operands?_eq]

theorem operandsOf_eq (u : Usage) : t.operandsOf u e = [r, v] := by
  cases u <;> simp [operandsOf, h.statement.kind_eq, h.operands?_eq, placeOperands,
    h.place.kind_eq, h.operands?_place]

end StoreParts

theorem StoreParts.passes {e place r m v : NodeId} {receiver member value : String}
    (h : t.StoreParts e receiver member value place r m v) (u : Usage) : t.Passes u e [e] := by
  refine passes_of_store (h.form_eq u) fun y hy => ?_
  rw [h.operandsOf_eq, List.mem_pair] at hy
  rcases hy with rfl | rfl
  · exact passes_reference h.receiver.kind_eq _
  · exact passes_reference h.value.kind_eq _

end Tree

/-! ## The parts for the fields -/

namespace Blueprint

namespace FieldParts

variable {t : Tree} {attrs : String} {fs : List Field} {ps ss : List NodeId}

theorem parameter_cases (h : FieldParts t attrs fs ps ss) {p : NodeId} (hp : p ∈ ps) :
    ∃ f ∈ fs, t.ParameterFor f p := by
  induction h with
  | nil => cases hp
  | unnamed _ _ ih =>
      obtain ⟨f, hf, hfp⟩ := ih hp
      exact ⟨f, List.mem_cons_of_mem _ hf, hfp⟩
  | named hname parameter type _ _ _ ih =>
      rcases List.mem_cons.mp hp with rfl | hp
      · exact ⟨_, List.mem_cons_self, Tree.parameterFor_of_built hname parameter type⟩
      · obtain ⟨f, hf, hfp⟩ := ih hp
        exact ⟨f, List.mem_cons_of_mem _ hf, hfp⟩

theorem statement_cases (h : FieldParts t attrs fs ps ss) {x : NodeId} (hx : x ∈ ss) :
    t.kind x = .blank "\n" ∨ ∃ f ∈ fs, t.StoreFor attrs f x := by
  induction h with
  | nil => cases hx
  | unnamed _ _ ih =>
      refine (ih hx).imp_right ?_
      rintro ⟨f, hf, hfx⟩
      exact ⟨f, List.mem_cons_of_mem _ hf, hfx⟩
  | named hname _ _ store blank _ ih =>
      rcases List.mem_cons.mp hx with rfl | hx
      · exact .inr ⟨_, List.mem_cons_self, _, _, _, _, _, hname, store⟩
      · rcases List.mem_cons.mp hx with rfl | hx
        · exact .inl blank.kind_eq
        · refine (ih hx).imp_right ?_
          rintro ⟨f, hf, hfx⟩
          exact ⟨f, List.mem_cons_of_mem _ hf, hfx⟩

theorem exists_of_field (h : FieldParts t attrs fs ps ss) {f : Field} (hf : f ∈ fs)
    (hname : f.name ≠ none) :
    (∃ p ∈ ps, t.ParameterFor f p) ∧ ∃ e ∈ ss, t.StoreFor attrs f e := by
  induction h with
  | nil => cases hf
  | unnamed hnone _ ih =>
      rcases List.mem_cons.mp hf with rfl | hf
      · exact absurd hnone hname
      · exact ih hf
  | @named g fs ps ss cs name p st newline place r m v hg parameter type store blank _ ih =>
      rcases List.mem_cons.mp hf with rfl | hf
      · exact ⟨⟨p, List.mem_cons_self, Tree.parameterFor_of_built hg parameter type⟩,
          st, List.mem_cons_self, name, place, r, m, v, hg, store⟩
      · obtain ⟨⟨q, hq, hfq⟩, e, he, hfe⟩ := ih hf
        exact ⟨⟨q, List.mem_cons_of_mem _ hq, hfq⟩, e,
          List.mem_cons_of_mem _ (List.mem_cons_of_mem _ he), hfe⟩

/-- The name of a parameter means this parameter, whatever comes after those of the fields. -/
theorem firstNamed?_eq {s : Source} (h : FieldParts s.tree attrs fs ps ss)
    (hnodup : (fs.filterMap (·.name)).Nodup) {p : NodeId} {name : String} (hp : p ∈ ps)
    (hname : s.tree.name? p = some name) (rest : List NodeId) :
    s.firstNamed? name (ps ++ rest) = some p := by
  induction h with
  | nil => cases hp
  | unnamed hnone _ ih =>
      rw [List.filterMap_cons, hnone] at hnodup
      exact ih hnodup hp
  | @named g fs ps ss cs name' q st newline place r m v hg parameter type store blank hrest ih =>
      rw [List.filterMap_cons, hg] at hnodup
      obtain ⟨hnot, hnodup⟩ := List.nodup_cons.mp hnodup
      have hq : s.tree.name? q = some name' :=
        (Tree.parameterFor_of_built hg parameter type).name_eq.trans hg
      rw [Source.firstNamed?, List.cons_append, List.find?_cons]
      rcases List.mem_cons.mp hp with rfl | hp
      · simp [hname]
      · -- the name of a later parameter is that of another field
        obtain ⟨f, hf, hfp⟩ := hrest.parameter_cases hp
        have hmem : name ∈ fs.filterMap (·.name) :=
          List.mem_filterMap.mpr ⟨f, hf, hfp.name_eq.symm.trans hname⟩
        have hne : s.tree.name? q ≠ some name := by
          rw [hq]
          rintro ⟨⟩
          exact hnot hmem
        rw [beq_eq_false_iff_ne.mpr hne]
        exact ih hnodup hp

end FieldParts

/-! ## The function in its file -/

theorem Drawn.trailingLambda?_eq {b : Blueprint} {fw : Framework} {t : Tree} {n : Nodes}
    (h : b.Drawn fw t n) : t.trailingLambda? n.call = some n.lambda := by
  simp [Tree.trailingLambda?, h.call.kind_eq, h.call.children_eq, h.lambda.kind_eq]

/-- A builder function that stands in its file as it was drawn. Its fields have different names,
and the parameter for the children has another one. -/
structure Placed (b : Blueprint) (s : Source) (n : Nodes) : Prop where
  wellFormed : s.tree.WellFormed
  isFile : (s.tree.kind s.tree.root).isFile = true
  drawn : b.Drawn s.framework s.tree n
  parent_eq : s.tree.parent n.function = some s.tree.root
  named : ∀ f ∈ b.fields, f.name ≠ none
  nodup : (b.fields.filterMap (·.name)).Nodup
  free : Field.taken b.fields b.bodyParameter = false

namespace Placed

variable {b : Blueprint} {s : Source} {n : Nodes} (h : b.Placed s n)

include h

theorem parameterList?_eq : s.tree.parameterList? n.function = some n.list := by
  simp [Tree.parameterList?, h.drawn.function.kind_eq, Kind.isFunction, Tree.child?,
    h.drawn.function.children_eq, h.drawn.list.kind_eq]

theorem isParameter {p : NodeId} (hp : p ∈ n.parameters ++ [n.handler]) :
    (s.tree.kind p).isParameter = true := by
  rcases List.mem_append.mp hp with hp | hp
  · obtain ⟨f, -, hfp⟩ := h.drawn.fields.parameter_cases hp
    exact hfp.isParameter
  · rw [List.mem_singleton.mp hp, h.drawn.handler.kind_eq]
    rfl

theorem parameters_eq : s.tree.parameters n.function = n.parameters ++ [n.handler] := by
  rw [Tree.parameters, h.parameterList?_eq]
  simp only [h.drawn.list.children_eq]
  exact List.filter_eq_self.mpr fun p hp => h.isParameter hp

theorem lambdaBody?_eq : s.tree.lambdaBody? n.lambda = some n.block := by
  simp [Tree.lambdaBody?, h.drawn.lambda.kind_eq, Tree.child?, h.drawn.lambda.children_eq,
    h.drawn.block.kind_eq]

/-- The parts of the function. -/
theorem parts (c : Component) :
    ({ component := c, function := n.function } : Builder).Parts s.tree n.list n.call n.lambda
      n.block where
  attached := h.wellFormed.attached_iff.mpr (.single h.parent_eq)
  list_eq := h.parameterList?_eq
  call_eq := by
    simp [Tree.functionBody?, h.drawn.function.kind_eq, Kind.isFunction, Tree.significant,
      h.drawn.function.children_eq, h.drawn.list.kind_eq, h.drawn.call.kind_eq, Kind.isTrivia]
  kind_call := h.drawn.call.kind_eq
  lambda_eq := h.drawn.trailingLambda?_eq
  body_eq := h.lambdaBody?_eq

/-! ## Names -/

/-- What a name means in the lambda: a parameter, or a declaration of the file. -/
theorem lexical?_lambda (name : String) : s.lexical? n.lambda name =
    (s.firstNamed? name (n.parameters ++ [n.handler])).or
      (s.tree.declaration? name fun k => k.isInterface || k.isClass || k.isFunction) := by
  have ht := h.wellFormed
  have hlambda : s.tree.parent n.lambda = some n.call :=
    ht.mem_children_iff.mp (by simp [h.drawn.call.children_eq])
  have hcall : s.tree.parent n.call = some n.function :=
    ht.mem_children_iff.mp (by simp [h.drawn.function.children_eq])
  rw [Source.lexical?, ht.ancestors_of_parent hlambda, Tree.lineage, ht.ancestors_of_parent hcall,
    Tree.lineage, ht.ancestors_of_parent h.parent_eq, Tree.lineage]
  simp only [Source.lexicalFrom?, h.drawn.call.kind_eq, h.drawn.function.kind_eq, h.parameters_eq]
  have hfile := h.isFile
  cases hroot : s.tree.kind s.tree.root with
  | file name => cases s.firstNamed? _ (n.parameters ++ [n.handler]) <;> rfl
  | _ => simp [hroot, Kind.isFile] at hfile

theorem name?_handler : s.tree.name? n.handler = some b.bodyParameter := by
  rw [Tree.name?, h.drawn.handler.kind_eq]
  rfl

/-- A parameter with the name of the one for the children is that one. -/
theorem name?_ne {p : NodeId} (hp : p ∈ n.parameters) : s.tree.name? p ≠ some b.bodyParameter := by
  obtain ⟨f, hf, hfp⟩ := h.drawn.fields.parameter_cases hp
  rw [hfp.name_eq]
  intro hname
  have htaken : Field.taken b.fields b.bodyParameter = true :=
    List.any_eq_true.mpr ⟨f, hf, by simp [hname]⟩
  rw [h.free] at htaken
  cases htaken

/-- **The name of a parameter means this parameter.** -/
theorem lexical?_parameter {p : NodeId} (hp : p ∈ n.parameters ++ [n.handler]) {name : String}
    (hname : s.tree.name? p = some name) : s.lexical? n.lambda name = some p := by
  have hfirst : s.firstNamed? name (n.parameters ++ [n.handler]) = some p := by
    rcases List.mem_append.mp hp with hp | hp
    · exact h.drawn.fields.firstNamed?_eq h.nodup hp hname _
    · obtain rfl := List.mem_singleton.mp hp
      obtain rfl : b.bodyParameter = name := Option.some.inj (h.name?_handler.symm.trans hname)
      have hnone : (n.parameters.find? fun p => s.tree.name? p == some b.bodyParameter) = none :=
        List.find?_eq_none.mpr fun p hp => by simpa using h.name?_ne hp
      rw [Source.firstNamed?, List.find?_append, hnone]
      simp [hname]
  rw [h.lexical?_lambda, hfirst]
  rfl

/-- A name in the block that is not behind a point means the parameter of that name. -/
theorem resolve?_eq {x p : NodeId} {name : String} (hx : s.tree.SameScope n.block x)
    (hk : s.tree.kind x = .reference name) (hq : s.qualifier? x = none)
    (hp : p ∈ n.parameters ++ [n.handler]) (hname : s.tree.name? p = some name) :
    s.resolve? x = some p := by
  refine Source.resolve?_of_lexical? hk hq ?_
  rw [Source.lexical?_of_sameScope h.wellFormed hx,
    Source.lexical?_body h.lambdaBody?_eq h.wellFormed, h.lexical?_parameter hp hname]

/-- Statements of the block are in its scope, and so are their parts. -/
theorem sameScope_statement {x : NodeId} (hx : x ∈ n.statements ++ [n.bodyCall]) :
    s.tree.SameScope n.block x := by
  refine h.wellFormed.sameScope_of_child ?_ ?_
  · rw [h.drawn.block.children_eq]
    exact hx
  · simp [Tree.opensScope, h.drawn.block.kind_eq]

/-- What is assigned to a field is the parameter for it. -/
theorem resolve?_stored {e place r m v p : NodeId} {name : String} (he : e ∈ n.statements)
    (hparts : s.tree.StoreParts e s.framework.attrsMember name name place r m v)
    (hp : p ∈ n.parameters) (hname : s.tree.name? p = some name) : s.resolve? v = some p := by
  have hmem : v ∈ s.tree.children e := by simp [hparts.statement.children_eq]
  have hparent := h.wellFormed.mem_children_iff.mp hmem
  have hscope := (h.sameScope_statement (List.mem_append_left _ he)).trans
    (h.wellFormed.sameScope_of_child hmem (by simp [Tree.opensScope, hparts.statement.kind_eq]))
  have hq : s.qualifier? v = none := by
    simp [Source.qualifier?, hparent, hparts.statement.kind_eq]
  exact h.resolve?_eq hscope hparts.value.kind_eq hq (List.mem_append_left _ hp) hname

theorem resolve?_bodyName : s.resolve? n.bodyName = some n.handler := by
  have hmem : n.bodyName ∈ s.tree.children n.bodyCall := by simp [h.drawn.bodyCall.children_eq]
  have hparent := h.wellFormed.mem_children_iff.mp hmem
  have hscope := (h.sameScope_statement (x := n.bodyCall) (by simp)).trans
    (h.wellFormed.sameScope_of_child hmem (by simp [Tree.opensScope, h.drawn.bodyCall.kind_eq]))
  have hq : s.qualifier? n.bodyName = none := by
    simp [Source.qualifier?, hparent, h.drawn.bodyCall.kind_eq]
  exact h.resolve?_eq hscope h.drawn.bodyName.kind_eq hq (by simp) h.name?_handler

/-- **Every parameter has a use.** -/
theorem unused_eq_nil : s.unused n.function n.block = [] := by
  have ht := h.wellFormed
  have hblock : s.tree.children n.block = n.statements ++ [n.bodyCall] := h.drawn.block.children_eq
  -- a name two levels below the block
  have hnames {x y : NodeId} (hx : x ∈ n.statements ++ [n.bodyCall]) (hy : y ∈ s.tree.children x)
      (href : (s.tree.kind y).isReference = true) : y ∈ s.namesBelow n.block := by
    refine (Source.mem_namesBelow_iff ht h.drawn.block.lt_size).mpr ⟨?_, href⟩
    exact .head (ht.mem_children_iff.mp hy) (.single (ht.mem_children_iff.mp (hblock ▸ hx)))
  refine List.filter_eq_nil_iff.mpr fun p hp => ?_
  rw [h.parameters_eq] at hp
  simp only [Bool.not_eq_true', Bool.not_eq_false, List.contains_iff_mem, List.mem_filterMap]
  rcases List.mem_append.mp hp with hp | hp
  · obtain ⟨f, hf, hfp⟩ := h.drawn.fields.parameter_cases hp
    obtain ⟨-, e, he, name, place, r, m, v, hname, hparts⟩ :=
      h.drawn.fields.exists_of_field hf (h.named f hf)
    refine ⟨v, hnames (List.mem_append_left _ he) (by simp [hparts.statement.children_eq]) ?_,
      h.resolve?_stored he hparts hp (hfp.name_eq.trans hname)⟩
    rw [hparts.value.kind_eq]
    rfl
  · rw [List.mem_singleton.mp hp]
    refine ⟨n.bodyName, hnames (x := n.bodyCall) (by simp)
      (by simp [h.drawn.bodyCall.children_eq]) ?_, h.resolve?_bodyName⟩
    rw [h.drawn.bodyName.kind_eq]
    rfl

/-! ## Runs of the block -/

/-- A statement of the block is the call at its end or the assignment of a field. -/
theorem statement_cases {x : NodeId} (hx : x ∈ s.tree.significant n.block) : x = n.bodyCall ∨
    x ∈ n.statements ∧ ∃ f ∈ b.fields, s.tree.StoreFor s.framework.attrsMember f x := by
  obtain ⟨hx, htrivia⟩ := List.mem_filter.mp hx
  rw [h.drawn.block.children_eq] at hx
  rcases List.mem_append.mp hx with hx | hx
  · rcases h.drawn.fields.statement_cases hx with hblank | hstore
    · simp [hblank, Kind.isTrivia] at htrivia
    · exact .inr ⟨hx, hstore⟩
  · exact .inl (List.mem_singleton.mp hx)

theorem form_bodyCall : s.tree.form .statement n.bodyCall = .evaluation := by
  simp [Tree.form, h.drawn.bodyCall.kind_eq]

theorem operandsOf_bodyCall : s.tree.operandsOf .statement n.bodyCall = [] := by
  simp [Tree.operandsOf, h.drawn.bodyCall.kind_eq, Tree.arguments, Tree.trailingLambda?,
    h.drawn.bodyCall.children_eq]

theorem form_block : s.tree.form .statement n.block = .listing := by
  simp [Tree.form, h.drawn.block.kind_eq]

/-- **The block has one run**, which makes all its assignments. -/
theorem passes_block : s.tree.Passes .statement n.block
    ((s.tree.significant n.block).flatMap fun x =>
      if s.tree.kind x = .assign then [x] else []) := by
  refine Tree.passes_of_listing h.form_block fun x hx => ?_
  rcases h.statement_cases hx with rfl | ⟨-, f, -, name, place, r, m, v, -, hparts⟩
  · rw [h.drawn.bodyCall.kind_eq, if_neg (by simp)]
    exact Tree.passes_of_evaluation h.form_bodyCall (by simp [h.operandsOf_bodyCall])
  · rw [hparts.statement.kind_eq, if_pos rfl]
    exact hparts.passes _

theorem exists_finishes : ∃ w, s.tree.Finishes n.block w :=
  ⟨_, .inl ((h.passes_block _ _).mpr ⟨rfl, rfl⟩)⟩

/-- A run that finishes assigns every field. -/
theorem assignsField_of_finishes {w : List NodeId} (hw : s.tree.Finishes n.block w) {f : Field}
    (hf : f ∈ b.fields) : ∃ e ∈ w, s.tree.AssignsField s.framework.attrsMember f e := by
  obtain ⟨-, e, he, name, place, r, m, v, hname, hparts⟩ :=
    h.drawn.fields.exists_of_field hf (h.named f hf)
  have hkind := hparts.statement.kind_eq
  have hmem : e ∈ s.tree.significant n.block := by
    refine List.mem_filter.mpr ⟨?_, by simp [hkind, Kind.isTrivia]⟩
    rw [h.drawn.block.children_eq]
    exact List.mem_append_left _ he
  have hruns : ∃ o, s.tree.Runs (.one .statement n.block) w o := hw.elim (⟨_, ·⟩) (⟨_, ·⟩)
  obtain ⟨o, hruns⟩ := hruns
  obtain ⟨rfl, -⟩ := (h.passes_block _ _).mp hruns
  exact ⟨e, List.mem_flatMap.mpr ⟨e, hmem, by simp [hkind]⟩, name, hname, hparts.memberStore?_eq⟩

end Placed

/-- The nodes that running the block of a generated function involves. -/
inductive Ran (b : Blueprint) (s : Source) (n : Nodes) : Usage → NodeId → Prop
  | block : Ran b s n .statement n.block
  | bodyCall : Ran b s n .statement n.bodyCall
  | store {x : NodeId} {f : Field} (hx : x ∈ n.statements) (hf : f ∈ b.fields)
      (hstore : s.tree.StoreFor s.framework.attrsMember f x) : Ran b s n .statement x
  | name {u : Usage} {x : NodeId} {text : String} (hk : s.tree.kind x = .reference text) :
      Ran b s n u x

namespace Placed

variable {b : Blueprint} {s : Source} {n : Nodes} (h : b.Placed s n)

include h

theorem ran_of_involves {u : Usage} {x : NodeId}
    (hx : s.tree.Involves .statement n.block u x) : b.Ran s n u x := by
  induction hx with
  | self => exact .block
  | next _ hneeds ih =>
      have hmem := Tree.mem_needsOf hneeds
      cases ih with
      | block =>
          simp only [Tree.needsOf, h.form_block, Tree.operandsOf_eq_nil (.inr (.inr h.form_block)),
            List.map_nil, List.nil_append, List.mem_map, Prod.mk.injEq] at hmem
          obtain ⟨x, hx, rfl, rfl⟩ := hmem
          rcases h.statement_cases hx with rfl | ⟨hx, f, hf, hstore⟩
          · exact .bodyCall
          · exact .store hx hf hstore
      | bodyCall => simp [Tree.needsOf, h.form_bodyCall, h.operandsOf_bodyCall] at hmem
      | store _ _ hstore =>
          obtain ⟨name, place, r, m, v, -, hparts⟩ := hstore
          simp only [Tree.needsOf, hparts.form_eq, hparts.operandsOf_eq, List.append_nil,
            List.map_cons, List.map_nil, List.mem_pair, Prod.mk.injEq] at hmem
          rcases hmem with ⟨rfl, rfl⟩ | ⟨rfl, rfl⟩
          · exact .name hparts.receiver.kind_eq
          · exact .name hparts.value.kind_eq
      | name hk => simp [Tree.needsOf, Tree.form_reference hk, Tree.operandsOf_reference hk] at hmem

/-- What stores is one of the assignments. -/
theorem store_of_involves {u : Usage} {e : NodeId} (he : s.tree.Involves .statement n.block u e)
    (hform : s.tree.form u e = .store) :
    e ∈ n.statements ∧ ∃ f ∈ b.fields, s.tree.StoreFor s.framework.attrsMember f e := by
  cases h.ran_of_involves he with
  | block => simp [h.form_block] at hform
  | bodyCall => simp [h.form_bodyCall] at hform
  | store hx hf hstore => exact ⟨hx, _, hf, hstore⟩
  | name hk => simp [Tree.form_reference hk] at hform

theorem onlyAssigns : s.tree.OnlyAssigns s.framework.attrsMember b.fields n.block := by
  intro u e he hform
  obtain ⟨-, f, hf, name, place, r, m, v, hname, hparts⟩ := h.store_of_involves he hform
  exact ⟨f, hf, name, hname, hparts.memberStore?_eq⟩

theorem loopFree : s.tree.LoopFree n.block := by
  intro u x hx hform
  cases h.ran_of_involves hx with
  | block => simp [h.form_block] at hform
  | bodyCall => simp [h.form_bodyCall] at hform
  | store _ _ hstore =>
      obtain ⟨name, place, r, m, v, -, hparts⟩ := hstore
      simp [hparts.form_eq] at hform
  | name hk => simp [Tree.form_reference hk] at hform

/-! ## What the analysis finds -/

variable {props : TypeExpr}

/-- **Every field is assigned**, when the name of the props is free. -/
theorem assigns (hp : s.PropsLambda n.lambda n.block props) {f : Field} (hf : f ∈ b.fields) :
    (Solver.ofLambda s n.lambda n.block props b.fields).atSink.assigns f = true :=
  Solver.assigns_complete hp h.wellFormed h.nodup h.loopFree h.exists_finishes hf
    fun _ hw => h.assignsField_of_finishes hw hf

/-- What an assignment of a field stores is a parameter of the field's type. -/
theorem storedParameter?_eq {u : Usage} {e : NodeId} {f : Field}
    (he : s.tree.Involves .statement n.block u e) (hform : s.tree.form u e = .store)
    (hf : f ∈ b.fields) (hfield : s.tree.AssignsField s.framework.attrsMember f e) :
    ∃ p, s.storedParameter? e = some p ∧ s.tree.ParameterFor f p := by
  obtain ⟨hmem, -, -, name, place, r, m, v, -, hparts⟩ := h.store_of_involves he hform
  obtain ⟨name', hname, hstore⟩ := hfield
  obtain rfl : name = name' := by
    rw [hparts.memberStore?_eq] at hstore
    exact (Prod.mk.inj (Option.some.inj hstore)).2
  obtain ⟨⟨p, hp, hfp⟩, -⟩ := h.drawn.fields.exists_of_field hf (h.named f hf)
  refine ⟨p, ?_, hfp⟩
  have hresolve := h.resolve?_stored hmem hparts hp (hfp.name_eq.trans hname)
  simp [Source.storedParameter?, hparts.operands?_eq, hparts.value.kind_eq, Kind.isReference,
    hresolve, hfp.isParameter]

/-- **No field is assigned a parameter of another type.** -/
theorem outdated?_eq_none (hdecl : ∀ f ∈ b.fields, ∀ g ∈ b.fields, f.decl = g.decl → f = g)
    {x : Field × Assignment}
    (hx : x ∈ (Solver.ofLambda s n.lambda n.block props b.fields).atSink.assigned) :
    s.outdated? x.1 x.2 = none := by
  have hxf := Solver.mem_fields_of_assigned h.lambdaBody?_eq h.nodup h.onlyAssigns hx
  rcases ((Solver.traced_ofLambda s n.lambda n.block props b.fields).entry x hx).origin with
    hmixed | ⟨j, g, a, hmatch, hg, horigin⟩
  · rw [Source.outdated?, hmixed]
  · rw [Solver.matcher_ofLambda] at hmatch
    obtain ⟨f, hf, u, e, he, hform, helem, -, hfield, heq⟩ :=
      Source.field_of_matcher h.lambdaBody?_eq h.nodup h.onlyAssigns hmatch
    cases heq
    obtain rfl : g = x.1 := hdecl g hf x.1 hxf hg
    obtain ⟨p, hstored, hfp⟩ := h.storedParameter?_eq he hform hf hfield
    have hanchor : ((some e).filter fun e => s.tree.kind e == .assign) = some e :=
      Option.filter_eq_some_iff.mpr ⟨rfl, by simp [(Tree.kind_of_store hform).1]⟩
    have hassign : (s.assignmentOf (((s.bodyCode n.block).flow n.lambda).instr j)).origin
        = .parameter p := by
      simp [Source.assignmentOf, helem, hanchor, hstored]
    rw [Source.outdated?, ← horigin, hassign]
    cases htype : x.1.type with
    | none => rfl
    | some type => simp [hfp.declaredType?_eq, htype]

/-- Nothing is assigned when the name of the props means something else. -/
theorem assigned_eq_nil {d : NodeId}
    (hbound : s.lexical? n.lambda s.framework.attrsMember = some d) :
    (Solver.ofLambda s n.lambda n.block props b.fields).atSink.assigned = [] := by
  refine List.eq_nil_iff_forall_not_mem.mpr fun x hx => ?_
  obtain ⟨j, a, hmatch⟩ :=
    ((Solver.traced_ofLambda s n.lambda n.block props b.fields).entry x hx).field
  rw [Solver.matcher_ofLambda] at hmatch
  have hb := h.lambdaBody?_eq
  obtain ⟨place, target, receiver, r, selector, i, name, hop, -, hs, hi, hreads, -, -⟩ :=
    Source.builderMatcher_cases hmatch
  obtain ⟨-, -, u, e, -, -, helem, -, ⟨name', -, hstore⟩, -⟩ :=
    Source.field_of_matcher hb h.nodup h.onlyAssigns hmatch
  -- the receiver of the store is read, and it is no receiver's member
  obtain ⟨r', selector', i', -, hs', hr, -, hscope, hi', hread⟩ :=
    Source.exists_read_receiver hb h.wellFormed hop helem hstore
  obtain ⟨rfl, -⟩ : r = r' ∧ selector = selector' :=
    Prod.mk.inj (Option.some.inj (hs.symm.trans hs'))
  obtain rfl : i = i' := Option.some.inj (hi.symm.trans hi')
  have hlexical : s.lexical? r s.framework.attrsMember = some d := by
    rw [Source.lexical?_of_sameScope h.wellFormed hscope, Source.lexical?_body hb h.wellFormed,
      hbound]
  have haccess : s.access r = (.declared d, none) := by
    simp [Source.access, Tree.referenceName?, hr, Kind.referenceName?, Source.binding, hlexical,
      Binding.access]
  rw [Source.readsAttrs, hread, haccess] at hreads
  cases hreads

/-! ## The parameter for the children -/

theorem writtenType?_handler : s.tree.writtenType? n.handler
    = some (.generic s.framework.handlerType [b.propsType]) := by
  refine Tree.writtenType?_of_annotates h.drawn.handler ?_
  exact ⟨_, rfl, h.drawn.handlerType⟩

/-- The parameter for the children is the first one of its type, when no field has that type. -/
theorem find?_handler (htypes : ∀ f ∈ b.fields,
      f.type.any (·.isClass s.framework.handlerType) = false) :
    ((n.parameters ++ [n.handler]).find? fun p =>
      (s.tree.writtenType? p).any (·.isClass s.framework.handlerType)) = some n.handler := by
  have hnone : (n.parameters.find? fun p =>
      (s.tree.writtenType? p).any (·.isClass s.framework.handlerType)) = none := by
    refine List.find?_eq_none.mpr fun p hp => ?_
    obtain ⟨f, hf, hfp⟩ := h.drawn.fields.parameter_cases hp
    rw [hfp.type_eq, htypes f hf]
    exact Bool.false_ne_true
  rw [List.find?_append, hnone]
  simp [h.writtenType?_handler, TypeExpr.isClass, TypeExpr.simpleName, TypeExpr.generic]

/-- The parameter of a field of that type is taken for the one for the children. -/
theorem exists_find?_handler {f : Field} (hf : f ∈ b.fields)
    (htype : f.type.any (·.isClass s.framework.handlerType) = true) :
    ∃ p ∈ n.parameters, ((n.parameters ++ [n.handler]).find? fun p =>
      (s.tree.writtenType? p).any (·.isClass s.framework.handlerType)) = some p := by
  obtain ⟨⟨q, hq, hfq⟩, -⟩ := h.drawn.fields.exists_of_field hf (h.named f hf)
  have hsome : (n.parameters.find? fun p =>
      (s.tree.writtenType? p).any (·.isClass s.framework.handlerType)).isSome = true :=
    List.find?_isSome.mpr ⟨q, hq, by rw [hfq.type_eq, htype]⟩
  obtain ⟨p, hp⟩ := Option.isSome_iff_exists.mp hsome
  refine ⟨p, List.mem_of_find?_eq_some hp, ?_⟩
  rw [List.find?_append, hp]
  rfl

end Placed

end Blueprint

end ComponentAudit
