import ApiContract.Proofs.Schema.Unrequired
import ApiContract.Proofs.Schema.Within
/-!
# Copies of what a reference leads to

A schema object with a reference in it accepts what both the reference and the keywords beside it
accept. A copy of what the reference leads to accepts what the reference does, where it is good, where
all that is referred to from it stands in its document as well, and where judging by it does not come
back to the reference at the same value. What stands beside the reference is lost in the copy.
-/

namespace ApiContract

namespace Schema

open Verdict

/-! ## What stands beside a keyword -/

/-- Whether every keyword but one accepts a value, after what the keywords before it covered. -/
def AcceptsBut (m : Meaning) (p : Place) (v : Json) (but : Keyword) : Coverage → List Keyword → Prop
  | _, [] => True
  | covered, k :: ks =>
    (k = but ∨ (judgeKeyword m p v covered k).accepted = true) ∧
      AcceptsBut m p v but (covered ++ (judgeKeyword m p v covered k).coverage) ks

/-- A keyword that does not look at what is covered, and the keywords beside it. -/
theorem accepted_judgeAll_iff {m : Meaning} {p : Place} {v : Json} {but : Keyword} {b : Bool}
    (hbut : ∀ covered, (judgeKeyword m p v covered but).accepted = b) (ks : List Keyword)
    (covered : Coverage) : (judgeAll m p v covered ks).accepted = true ↔
      (but ∈ ks → b = true) ∧ AcceptsBut m p v but covered ks := by
  induction ks generalizing covered with
  | nil => simp [judgeAll, AcceptsBut, accepted]
  | cons k ks ih =>
    simp only [judgeAll, accepted_append, Bool.and_eq_true, ih, AcceptsBut]
    by_cases hk : k = but
    · subst hk
      simp only [hbut, List.mem_cons_self, true_or, true_and, forall_const]
      exact ⟨fun h => ⟨h.1, h.2.2⟩, fun h => ⟨h.1, fun _ => h.1, h.2⟩⟩
    · simp only [List.mem_cons, Ne.symm hk, hk, false_or]
      exact and_left_comm

theorem accepted_reference {m : Meaning} {p : Place} {v : Json} {covered : Coverage}
    {target : String} : (judgeKeyword m p v covered (.reference target)).accepted =
      (m.here target (p.under "$ref") v).accepted := by
  rw [judgeKeyword, accepted_inPlace]

namespace Compiled

/-- Whether a value is accepted by the definition of a reference. -/
def acceptsBy (c : Compiled) (target : String) (v : Json) : Bool :=
  (c.follow (c.followBound v) [] target (Place.root.under "$ref") v).accepted

/-- Whether what stands beside a reference accepts a value. -/
def AcceptsBeside (c : Compiled) (target : String) (v : Json) : Prop :=
  ∀ ks, c.schema = .node ks →
    AcceptsBut (c.meaning (c.followBound v)) .root v (.reference target) {} ks

/-- **A schema with a reference accepts what the reference and all beside it accept.** -/
theorem accepts_iff_of_reference {c : Compiled} {target : String}
    (h : HasKeyword c.schema (.reference target)) (v : Json) :
    c.accepts v = true ↔ c.acceptsBy target v = true ∧ c.AcceptsBeside target v := by
  obtain ⟨ks, hks, hmem⟩ := h
  have hbeside : c.AcceptsBeside target v ↔
      AcceptsBut (c.meaning (c.followBound v)) .root v (.reference target) {} ks := by
    simp only [AcceptsBeside, hks, Schema.node.injEq, forall_eq']
  show (judge (c.meaning (c.followBound v)) .root v c.schema).accepted = true ↔ _
  rw [hbeside, hks]
  show (judgeAll (c.meaning (c.followBound v)) .root v {} ks).accepted = true ↔ _
  rw [accepted_judgeAll_iff fun covered => accepted_reference]
  exact and_congr_left fun _ => ⟨fun h => h hmem, fun h _ => h⟩

theorem Share.symm {c c' : Compiled} {scope : List String} (h : c.Share c' scope) :
    c'.Share c scope := by
  refine ⟨h.dialect.symm, fun t ht => ?_⟩
  obtain ⟨s, hs, hs', htargets⟩ := h.defined t ht
  exact ⟨s, hs', hs, htargets⟩

end Compiled

/-! ## Copies -/

section

variable {dialect : Dialect} {formats : Bool} {root copy v : Json} {c : Compiled} {target : String}

/-- **A copy of what a reference leads to is linked, and accepts what the reference does.** -/
theorem exists_link_copy (hl : Linked dialect formats root c)
    (htarget : .reference target ∈ (read dialect formats root).events)
    (hv : resolveReference root target = .ok v)
    (hcopy : Counterpart dialect formats Compiled.JudgedSame v copy)
    (hparts : ∀ u w, c.definitions.contains u = true → resolveReference root u = .ok w →
      resolveReference copy u = .ok w)
    {nearby : String → Prop} (hclosed : c.ClosedNear nearby)
    (hnear : ∀ u ∈ near (read dialect formats v).result, nearby u) (hnot : ¬nearby target) :
    ∃ c', link dialect formats copy = .ok c' ∧ ∀ w, c'.accepts w = c.acceptsBy target w := by
  obtain ⟨s, hs⟩ := Option.isSome_iff_exists.mp (hl.entered target htarget)
  obtain ⟨v', hv', hfaultless, rfl, hinner⟩ := hl.settled target s hs
  obtain rfl := Except.ok.inj (hv'.symm.trans hv)
  have hscope : ClosedUnder dialect formats copy (fun u => c.definitions.contains u = true) := by
    intro u hu
    obtain ⟨s, hs⟩ := Option.isSome_iff_exists.mp hu
    obtain ⟨w, hw, hfaultless, -, hinner⟩ := hl.settled u s hs
    exact ⟨w, hparts u w hu hw, hfaultless, hinner⟩
  obtain ⟨c', hlink', hwithin⟩ := exists_link (hcopy.faultless hfaultless)
    (fun u hu => hinner u (hcopy.events ▸ hu)) hscope
  have hl' := linked_of_link hlink'
  have hshare : c'.Share c c'.definitions.keys :=
    (hl.share hl' fun u hu => ⟨hwithin u hu, fun w hw => hparts u w (hwithin u hu) hw⟩).symm
  have htargets : ∀ u ∈ targets (read dialect formats v').result, u ∈ c'.definitions.keys :=
    fun u hu => Assoc.contains_iff_mem_keys.mp
      (hl'.entered u (hcopy.events ▸ reference_mem_events hu))
  have hclosed' : c'.ClosedNear nearby := by
    intro u s hu hs
    have hmem : u ∈ c'.definitions.keys :=
      Assoc.contains_iff_mem_keys.mp (by rw [Assoc.contains_eq, hs]; rfl)
    obtain ⟨s', hs', hs'', -⟩ := hshare.defined u hmem
    obtain rfl := Option.some.inj (hs.symm.trans hs')
    exact hclosed u s hu hs''
  refine ⟨c', hlink', fun w => ?_⟩
  show (judge (c'.meaning (c'.followBound w)) .root w c'.schema).accepted = _
  rw [hl'.schema, ← hcopy.related]
  exact (Compiled.alike_follow_definition hshare htargets hs hclosed' hnear hnot
    (c'.ample_followBound (Nat.le_refl _)) (c.ample_followBound (Nat.le_refl _)) .root
    (Place.root.under "$ref")).accepted_eq

end

end Schema

open Schema

namespace Compiler

variable {x : Compiler} {schema copy v : Json} {route target : String} {c : Compiled}

/-! ## Schemas of a route -/

/-- Whether what stands beside a reference in a schema accepts a value. -/
def AcceptsBeside (x : Compiler) (schema : Json) (target route : String) (v : Json) : Prop :=
  ∃ c, x.compile schema route = .ok c ∧ c.AcceptsBeside target v

/-- Whether what a reference in a compiled schema leads to can be copied out of the components. The
evaluator must find it under the reference, and all else that is referred to must lead to the same
from the copy. The copy must be good, which is not asked of a component, and judging by it must not
come back to the reference at the same value. -/
structure Copyable (x : Compiler) (schema : Json) (c : Compiled) (target : String)
    (v copy : Json) : Prop where
  resolved : resolveReference (x.document schema) target = .ok (normalize v)
  kept : ∀ u w, c.definitions.contains u = true →
    resolveReference (x.document schema) u = .ok w → resolveReference (x.document copy) u = .ok w
  good : (metaschema x.dialect).accepts (normalize copy) = true
  onward : ∃ nearby : String → Prop, c.ClosedNear nearby ∧ (∀ u ∈ near (x.reading v), nearby u) ∧
    ¬nearby target

/-- All that is referred to leads to the same where it stands in the components. -/
theorem kept_of_staysInComponents (hinto : c.StaysInComponents) {components : Json}
    (hcomponents : x.components = some components) {members members' : Assoc Json}
    (hschema : normalize schema = .object members) (hcopy : normalize copy = .object members')
    {u : String} {w : Json} (hu : c.definitions.contains u = true)
    (hw : resolveReference (x.document schema) u = .ok w) :
    resolveReference (x.document copy) u = .ok w := by
  rw [document_eq, hcomponents] at hw ⊢
  rw [hschema] at hw
  rw [hcopy, ← hw]
  exact resolveReference_congr (hinto u hu) (by rw [Assoc.get?_insert_self, Assoc.get?_insert_self])

theorem hasKeyword_of_compile (hc : x.compile schema route = .ok c)
    (href : Contract.referenceOf? schema = some target) :
    HasKeyword c.schema (.reference target) := by
  rw [schema_of_compile hc]
  exact hasKeyword_referenceOf href

theorem Accepts.beside (h : x.Accepts schema route v)
    (href : Contract.referenceOf? schema = some target) :
    x.AcceptsBeside schema target route v := by
  obtain ⟨c, hc, haccepts⟩ := h
  exact ⟨c, hc,
    ((Compiled.accepts_iff_of_reference (hasKeyword_of_compile hc href) v).mp haccepts).2⟩

/-- In the older dialect nothing stands beside a reference. -/
theorem acceptsBeside_of_draft4 (hdialect : x.dialect = .draft4)
    (hc : x.compile schema route = .ok c)
    (href : Contract.referenceOf? schema = some target) (w : Json) :
    x.AcceptsBeside schema target route w := by
  refine ⟨c, hc, fun ks hks => ?_⟩
  rw [schema_of_compile hc, reading_referenceOf hdialect href] at hks
  obtain rfl := Schema.node.inj hks
  exact ⟨Or.inl rfl, trivial⟩

/-- **A schema with a reference accepts what its copied target and all beside the reference accept.** -/
theorem accepts_iff_of_copyable (hc : x.compile schema route = .ok c)
    (href : Contract.referenceOf? schema = some target) (h : x.Copyable schema c target v copy)
    (hcopy : Counterpart x.dialect x.formats Compiled.JudgedSame (normalize v) (normalize copy))
    (w : Json) : x.Accepts schema route w ↔
      x.Accepts copy route w ∧ x.AcceptsBeside schema target route w := by
  obtain ⟨nearby, hclosed, hnear, hnot⟩ := h.onward
  have hkeyword := hasKeyword_of_compile hc href
  have hcopy' : Counterpart x.dialect x.formats Compiled.JudgedSame (normalize v)
      (x.document copy) := by
    rw [document_eq]
    exact ⟨by rw [read_withComponents]; exact hcopy.events,
      by rw [read_withComponents]; exact hcopy.related⟩
  have hl := linked_of_compile hc
  have htarget : .reference target ∈ (read x.dialect x.formats (x.document schema)).events := by
    refine reference_mem_events (hl.schema ▸ hkeyword.targets ?_)
    exact List.mem_singleton.mpr rfl
  obtain ⟨c', hlink', haccepts⟩ :=
    exists_link_copy hl htarget h.resolved hcopy' h.kept hclosed hnear hnot
  have hc' : x.compile copy route = .ok c' := by
    rw [compile_eq_ok_iff, Schema.compile_eq_ok_iff, accepts_withComponents, ← document_eq]
    exact ⟨h.good, hlink'⟩
  simp only [Accepts, AcceptsBeside, hc, hc', Except.ok.injEq, exists_eq_left', haccepts]
  exact Compiled.accepts_iff_of_reference hkeyword w

end Compiler

end ApiContract
