import ComponentAudit.Proofs.Edit.Forwarded

set_option autoImplicit false

/-! # What a fix mends

After a fix has been applied the audits do not offer it again. What each of them looks for is gone:
the declaration is out of the file, the property is mutable, the name is the expected one, the
builder function is there, the base class gets the props. Synchronising a builder function is left
out here, since its analysis does not see every assignment that it adds.

Main statement: `Fix.applied_not_offered`.
-/

namespace ComponentAudit

/-! ## Generating a builder function -/

namespace Component

variable {t u : Tree} {fw : Framework} {c : Component}

/-- **A component whose builder function is generated has one**, and stays the component it was. -/
theorem builder?_of_addBuilder (ht : t.WellFormed) (hfile : (t.kind t.root).isFile = true)
    (hc : c.Declared t) (hclass : ofClass? t fw c.decl = some c) {b : Builder}
    (hrun : Change.run (c.addBuilder fw) t = (.ok b, u)) :
    ofClass? u fw c.decl = some c ∧
      c.builder? { tree := u, framework := fw } ≠ none := by
  obtain ⟨blueprint, n, hb, rfl, hextended, hdrawn⟩ := extended_of_addBuilder ht hfile hc hrun
  obtain ⟨hname, hfunction, -⟩ := Blueprint.of_eq_ok hb
  refine ⟨(hextended.ofClass?_eq ht hc.mem_declarations fw).trans hclass, ?_⟩
  have hu := hextended.wellFormed
  have hmem := hc.mem_declarations
  have hparent := ht.mem_children_iff.mp (Tree.mem_children_of_significant hmem)
  have hroot : (u.kind u.root).isFile = true := by
    rw [hextended.root_eq, hextended.kind_eq (ht.lt_size hparent), hfile]
  have hnameU : c.builderName? u = some blueprint.functionName := by
    rw [← hfunction, builderName?, builderName?, name?, name?, Tree.name?, Tree.name?,
      hextended.kind_declaration ht hmem]
  obtain ⟨before, after, hold, hdecls⟩ := hextended.declarations_eq ht
    (by rw [hdrawn.function.kind_eq]; rfl)
  have hmemU : c.decl ∈ u.declarations := by
    rw [hold] at hmem
    rw [hdecls]
    exact List.mem_append.mpr ((List.mem_append.mp hmem).imp_right (List.mem_cons_of_mem _))
  have hparentU := hu.mem_children_iff.mp (Tree.mem_children_of_significant hmemU)
  -- the new function has the name and the receiver of a builder function
  have hfind : (u.declarations.find? fun f => (u.kind f).isFunction &&
      u.name? f == some blueprint.functionName &&
      Source.extendsBuilder { tree := u, framework := fw } f).isSome = true := by
    refine List.find?_isSome.mpr ⟨n.function, by simp [hdecls], ?_⟩
    simp only [Source.extendsBuilder, Tree.name?, hdrawn.function.kind_eq]
    simp [Blueprint.declaration, Kind.isFunction, Kind.name?, Kind.receiver?, TypeExpr.simple,
      TypeExpr.isClass, TypeExpr.simpleName]
  obtain ⟨f, hf⟩ := Option.isSome_iff_exists.mp hfind
  rw [Tree.declarations] at hf
  simp [builder?, hnameU, Tree.container?_declared hu hroot hparentU, hf]

end Component

/-! ## What is not offered -/

theorem Kind.name?_renamed {k k' : Kind} {name : String} (h : k.renamed? name = some k') :
    k'.name? = some name := by
  cases k <;> cases h <;> rfl

/-- Trivia have no name that could be changed. -/
theorem Kind.isTrivia_of_renamed {k k' : Kind} {name : String} (h : k.renamed? name = some k') :
    k.isTrivia = false := by
  cases k with
  | blank _ | comment _ => cases h
  | _ => rfl

/-- A node that is no trivia is in the table, and can be given any kind. -/
theorem Tree.kind_setKind_self {t : Tree} {n : NodeId} (hn : (t.kind n).isTrivia = false)
    (k : Kind) : (t.setKind n k).kind n = k := by
  have hlt : n < t.size := by
    refine Nat.lt_of_not_le fun hle => ?_
    rw [kind_of_le hle] at hn
    cases hn
  rw [kind_setKind, if_pos ⟨rfl, hlt⟩]

namespace Source

variable {s : Source}

/-- What hangs nowhere is no member, so its removal is not offered. -/
theorem not_offers_removeDeclaration (hs : s.tree.WellFormed) {n : NodeId}
    (hn : s.tree.parent n = none) : ¬ s.Offers (.removeDeclaration n) := by
  have hmember {d : NodeId} (hd : n ∈ s.tree.members d) : False := by
    rw [hs.mem_children_iff.mp (Tree.mem_children_of_members hd)] at hn
    cases hn
  intro h
  cases h with
  | removeMember _ hm => exact hmember hm
  | removeInitializer _ hi => exact hmember (Component.mem_members_of_initializer hi)

/-- What hangs nowhere is no declaration of the file either. -/
theorem not_offers_removeSchema (hs : s.tree.WellFormed) {n : NodeId} {role : Role}
    (hn : s.tree.parent n = none) : ¬ s.Offers (.removeSchema n role) := by
  intro h
  cases h with
  | removeSchema hi =>
      rw [hs.mem_children_iff.mp
        (Tree.mem_children_of_significant (spec_of_mem_schemas hi).1)] at hn
      cases hn

theorem not_offers_makeMutable {m : NodeId} {decl : PropertyDecl}
    (hkind : s.tree.kind m = .property decl) (hdecl : decl.mutable = true) :
    ¬ s.Offers (.makeMutable m) := by
  intro h
  cases h with
  | makeMutable _ _ hkind' hdecl' =>
      cases hkind.symm.trans hkind'
      cases hdecl.symm.trans hdecl'

theorem not_offers_rename {n : NodeId} {name : String} (hname : s.tree.name? n = some name) :
    ¬ s.Offers (.rename n (some name)) := by
  intro h
  cases h with
  | renameBuilder _ _ _ hother => exact hother hname

/-- What is offered for a class is offered for the component that it is. -/
theorem not_offers_takeProps {c : Component}
    (hclass : Component.ofClass? s.tree s.framework c.decl = some c)
    (hprops : c.passesProps s.tree = true) : ¬ s.Offers (.takeProps c.decl) := by
  intro h
  generalize hdecl : c.decl = decl at h
  cases h with
  | takeProps hc hprops' =>
      have hclass' := Component.ofClass?_of_mem_all hc
      rw [← hdecl, hclass] at hclass'
      cases hclass'
      cases hprops.symm.trans hprops'

theorem not_offers_regenerate {c : Component}
    (hclass : Component.ofClass? s.tree s.framework c.decl = some c)
    (hbuilder : c.builder? s ≠ none) : ¬ s.Offers (.regenerate c.decl) := by
  intro h
  generalize hdecl : c.decl = decl at h
  cases h with
  | regenerate hc hbuilder' =>
      have hclass' := Component.ofClass?_of_mem_all hc
      rw [← hdecl, hclass] at hclass'
      cases hclass'
      exact hbuilder hbuilder'

end Source

namespace Fix

variable {t u : Tree} {fw : Framework}

/-- **An applied fix is not offered again.** After a fix that the audits offer for a file has been
applied, other than the synchronisation of a builder function, none of the diagnostics of the file
carries it, whatever they report and where. -/
theorem applied_not_offered (ht : t.WellFormed) (hfile : (t.kind t.root).isFile = true)
    {d : Diagnostic} {x : Fix} (hd : d ∈ ({ tree := t, framework := fw } : Source).auditAll)
    (hx : x ∈ d.fixes) (hsync : ∀ function, x ≠ .synchronize function)
    (hrun : Change.run (x.apply fw) t = (.ok (), u)) :
    ∀ d' ∈ ({ tree := u, framework := fw } : Source).auditAll, x ∉ d'.fixes := by
  suffices h : ¬ Source.Offers { tree := u, framework := fw } x from
    fun d' hd' hx' => h (Source.offers_of_mem hd' hx')
  have heq {v : Tree} (h : Change.run (x.apply fw) t = (.ok (), v)) : v = u :=
    (Prod.mk.inj (h.symm.trans hrun)).2
  have hfree (v : Tree) (n : NodeId) : (v.detach n).parent n = none := by
    rw [Tree.parent_detach, if_pos rfl]
  cases Source.offers_of_mem hd hx with
  | @makeMutable i m decl hi hm hkind hdecl =>
      obtain rfl := heq (run_makeMutable ht hi hm hkind)
      have hkind' := Tree.kind_setKind_self (hkind ▸ rfl : (t.kind m).isTrivia = false)
        (.property { decl with mutable := true })
      exact Source.not_offers_makeMutable (s := { tree := _, framework := fw }) hkind' rfl
  | renameMember hi hm => cases hrun
  | @removeMember i m hi hm =>
      obtain ⟨v, hv, hrun'⟩ := run_removeMember ht hfile (Source.spec_of_mem_schemas hi).1 hm
      obtain rfl := heq hrun'
      exact Source.not_offers_removeDeclaration (hv.detach m) (hfree v m)
  | @removeSchema i hi =>
      obtain ⟨v, hv, hrun'⟩ := run_removeSchema ht hi
      obtain rfl := heq hrun'
      exact Source.not_offers_removeSchema (hv.detach i.decl) (hfree v i.decl)
  | @removeInitializer c i hc hi =>
      obtain ⟨v, hv, hrun'⟩ := run_removeMember ht hfile
        (Component.declared_of_mem_all hc).mem_declarations
        (Component.mem_members_of_initializer hi)
      obtain rfl := heq hrun'
      exact Source.not_offers_removeDeclaration (hv.detach i.function) (hfree v i.function)
  | @takeProps c hc _ =>
      rw [run_takeProps ht hc] at hrun
      cases hargument : c.argument? t .props with
      | none => simp [hargument] at hrun
      | some props =>
          rw [hargument] at hrun
          obtain ⟨hclass, hprops'⟩ := Component.passes_of_passProps ht
            (Component.declared_of_mem_all hc) (Component.ofClass?_of_mem_all hc) hrun
          exact Source.not_offers_takeProps hclass hprops'
  | @regenerate c hc hbuilder =>
      obtain ⟨b, v, hadd, hrun'⟩ := run_regenerate ht hc hbuilder
      obtain rfl := heq hrun'
      obtain ⟨hclass, hbuilder'⟩ := Component.builder?_of_addBuilder ht hfile
        (Component.declared_of_mem_all hc) (Component.ofClass?_of_mem_all hc) hadd
      exact Source.not_offers_regenerate hclass hbuilder'
  | @renameBuilder call c b name hcall hc hb _ =>
      obtain ⟨kind, hkind, hrun'⟩ := run_renameBuilder ht hfile hcall hc hb name
      obtain rfl := heq hrun'
      refine Source.not_offers_rename (s := { tree := _, framework := fw }) ?_
      rw [Tree.name?, Tree.kind_setKind_self (Kind.isTrivia_of_renamed hkind),
        Kind.name?_renamed hkind]
  | synchronize => exact absurd rfl (hsync _)

/-- The props are asked for twice, at the class and at the parameter of its initialiser, and after
the class has taken them only the missing builder function is reported. -/
theorem applied_not_offered_initialized :
    let t := ((initialized (.generic "RComponent" [.simple "CProps", .simple "CState"])).run
      (Tree.ofFile "F")).2
    t.WellFormed ∧ (t.kind t.root).isFile = true ∧
      ((({ tree := t, framework := {} } : Source).auditAll.filter
        fun d => Fix.takeProps 7 ∈ d.fixes).length = 2) ∧
      ∃ u, Change.run ((Fix.takeProps 7).apply {}) t = (.ok (), u) ∧
        ∀ d ∈ ({ tree := u, framework := {} } : Source).auditAll, Fix.takeProps 7 ∉ d.fixes := by
  intro t
  have hfacts : t.WellFormed ∧ (t.kind t.root).isFile = true ∧
      (({ tree := t, framework := {} } : Source).auditAll.filter
        fun d => Fix.takeProps 7 ∈ d.fixes).length = 2 ∧
      (Change.run ((Fix.takeProps 7).apply {}) t).1 = .ok () := by decide +kernel
  obtain ⟨ht, hfile, hlength, hok⟩ := hfacts
  have hrun : Change.run ((Fix.takeProps 7).apply {}) t =
      (.ok (), (Change.run ((Fix.takeProps 7).apply {}) t).2) := Prod.ext hok rfl
  obtain ⟨d, hd⟩ := List.exists_mem_of_length_pos (hlength ▸ Nat.zero_lt_two)
  obtain ⟨hd, hx⟩ := List.mem_filter.mp hd
  exact ⟨ht, hfile, hlength, _, hrun,
    applied_not_offered ht hfile hd (of_decide_eq_true hx) (by simp) hrun⟩

end Fix

end ComponentAudit
