import ConfigClasses.Proofs.Interning
import ConfigClasses.Proofs.Lineage
import ConfigClasses.Proofs.Permission
import ConfigClasses.Proofs.ScopeOrder

namespace ConfigClasses

def addOnce (texts : List String) (x : String) : List String :=
  if x ∈ texts then texts else texts ++ [x]

theorem foldl_addOnce {texts more : List String} (h : (texts ++ more).Nodup) :
    more.foldl addOnce texts = texts ++ more := by
  induction more generalizing texts with
  | nil => simp
  | cons x more ih =>
    have hx : x ∉ texts := fun hx => (List.nodup_append.1 h).2.2 x hx x List.mem_cons_self rfl
    rw [List.foldl_cons, addOnce, if_neg hx, ih (by simpa using h)]
    simp

def Step.space? : Step → Option String
  | .addNamespace _ (.text ns) => some ns
  | _ => none

def Step.setting? : Step → Option (String × Value)
  | .bind _ (.text x) v => some (x, v)
  | _ => none

def spaces (body : Body) : List String := body.filterMap Step.space?

def settings (body : Body) : List (String × Value) := body.filterMap Step.setting?

/-- What the scope of a class shows. It is in the scope of `around`, or in the top scope. -/
structure Sheet where
  around : Option ClassId
  spaces : List String
  settings : List (String × Value)

namespace Sheet

def addNamespace (sheet : Sheet) (x : String) : Sheet :=
  { sheet with spaces := addOnce sheet.spaces x }

def bind (sheet : Sheet) (x : String) (v : Value) : Sheet :=
  { sheet with settings := sheet.settings ++ [(x, v)] }

def run (sheet : Sheet) (body : Body) : Sheet where
  around := sheet.around
  spaces := (ConfigClasses.spaces body).foldl addOnce sheet.spaces
  settings := sheet.settings ++ ConfigClasses.settings body

theorem run_nil (sheet : Sheet) : sheet.run [] = sheet := by
  simp [run, ConfigClasses.spaces, ConfigClasses.settings]

theorem run_addNamespace (sheet : Sheet) (s : ScopeRef) (x : String) :
    sheet.run [.addNamespace s (.text x)] = sheet.addNamespace x :=
  congrArg (mk _ _) (List.append_nil _)

theorem run_bind (sheet : Sheet) (s : ScopeRef) (x : String) (v : Value) :
    sheet.run [.bind s (.text x) v] = sheet.bind x v := rfl

theorem run_cons (sheet : Sheet) (step : Step) (body : Body) :
    sheet.run (step :: body) = (sheet.run [step]).run body := by
  have hspaces : ConfigClasses.spaces (step :: body) =
      ConfigClasses.spaces [step] ++ ConfigClasses.spaces body := List.filterMap_append (l := [step])
  have hsettings : ConfigClasses.settings (step :: body) =
      ConfigClasses.settings [step] ++ ConfigClasses.settings body :=
    List.filterMap_append (l := [step])
  simp only [run, hspaces, hsettings, List.foldl_append, List.append_assoc]

end Sheet

namespace ClassTable

variable (t : ClassTable Body) (names : Interner) (c : ClassId)

def bodyOf : Body := (t.body? c).getD []

def aboveOf : List ClassId := (t.lineage c).toOption.getD []

def namespacesOf : List ClassId → List String
  | [] => []
  | c :: above => (spaces (t.bodyOf c)).foldl addOnce (namespacesOf above)

def blank (above : List ClassId) : Sheet := ⟨above.head?, t.namespacesOf above, []⟩

def sheet : Sheet := (t.blank (t.aboveOf c)).run (t.bodyOf c)

def isOwn : ScopeRef → Bool
  | .here => true
  | .ofClass name => t.find? names name = some c
  | _ => false

def isPlain : Step → Bool
  | .addNamespace s (.text _) | .bind s (.text _) _ => t.isOwn names c s
  | _ => false

structure Plain : Prop where
  steps : ∀ step ∈ t.bodyOf c, t.isPlain names c step = true
  once : ((settings (t.bodyOf c)).map Prod.fst).Nodup

structure PlainChain : Prop where
  declared : (t.decl? c).isSome
  lineage : t.lineage c = .ok (t.aboveOf c)
  plain : ∀ a ∈ c :: t.aboveOf c, t.Plain names a

instance : Decidable (t.Plain names c) :=
  decidable_of_iff ((∀ step ∈ t.bodyOf c, t.isPlain names c step = true) ∧
    ((settings (t.bodyOf c)).map Prod.fst).Nodup) ⟨fun h => ⟨h.1, h.2⟩, fun h => ⟨h.steps, h.once⟩⟩

instance : Decidable (t.PlainChain names c) :=
  decidable_of_iff ((t.decl? c).isSome ∧ t.lineage c = .ok (t.aboveOf c) ∧
      ∀ a ∈ c :: t.aboveOf c, t.Plain names a)
    ⟨fun h => ⟨h.1, h.2.1, h.2.2⟩, fun h => ⟨h.declared, h.lineage, h.plain⟩⟩

variable {t names c}

theorem PlainChain.ancestry (h : t.PlainChain names c) : t.Ancestry c (t.aboveOf c) :=
  lineage_eq_ok.1 h.lineage

theorem Ancestry.aboveOf {above : List ClassId} (h : t.Ancestry c above) : t.aboveOf c = above := by
  simp [ClassTable.aboveOf, lineage_eq_ok.2 h, Except.toOption]

theorem Ancestry.of_mem {above : List ClassId} {a : ClassId} (h : t.Ancestry c above)
    (ha : a ∈ c :: above) : t.Ancestry a (t.aboveOf a) := by
  rcases List.mem_cons.1 ha with rfl | ha
  · exact h.aboveOf.symm ▸ h
  · obtain ⟨ds, hds, -⟩ := h.tail_of_mem ha
    exact hds.aboveOf.symm ▸ hds

theorem PlainChain.mem_iff (h : t.PlainChain names c) (a : ClassId) :
    a ∈ c :: t.aboveOf c ↔ a = c ∨ t.inherits c a = true :=
  List.mem_cons.trans (or_congr_right h.ancestry.inherits_iff.symm)

theorem Ancestry.sheet {above : List ClassId} (h : t.Ancestry c above) :
    t.sheet c = (t.blank above).run (t.bodyOf c) := by
  rw [ClassTable.sheet, h.aboveOf]

theorem sheet_spaces {above : List ClassId} (h : t.Ancestry c above) :
    (t.sheet c).spaces = t.namespacesOf (c :: above) := by
  rw [h.sheet]
  rfl

end ClassTable

namespace Scope

structure Shows (names : Interner) (scope : Scope) (texts : List String)
    (vars : List (String × Value)) : Prop where
  issued : ∀ ns ∈ scope.namespaces, ns.raw < names.size
  nodup : scope.namespaces.Nodup
  texts : scope.namespaces.map names.text = texts
  keys : ∀ (n : Name) (v : Value), scope.bindings[n]? = some v → n.raw < names.size
  vars : ∀ (x : String) (v : Value),
    (x, v) ∈ vars ↔ ∃ n, names.find? x = some n ∧ scope.bindings[n]? = some v

variable {names names' : Interner} {scope : Scope} {texts : List String}
  {vars : List (String × Value)} {n : Name} {x : String}

theorem shows_fresh (names : Interner) (parent : Option ScopeId) (r : Option Resource) :
    (fresh parent r).Shows names [] [] := by
  constructor <;> simp [fresh]

theorem Shows.texts_nodup (h : scope.Shows names texts vars) (hs : names.Sound) : texts.Nodup := by
  rw [← h.texts]
  refine List.Nodup.map_on (fun n hn m hm heq => ?_) h.nodup
  have hfound := hs.find?_text (h.issued n hn)
  rw [heq, hs.find?_text (h.issued m hm)] at hfound
  exact (Option.some.inj hfound).symm

theorem Shows.within (h : scope.Shows names texts vars) (hs : names.Sound) (hs' : names'.Sound)
    (hw : names.Within names') : scope.Shows names' texts vars := by
  have hkept (n : Name) (hn : n.raw < names.size) :
      n.raw < names'.size ∧ names'.text n = names.text n :=
    (hs' _ n).1 (hw _ n (hs.find?_text hn))
  refine ⟨fun ns hns => (hkept ns (h.issued ns hns)).1, h.nodup, ?_,
    fun n v hv => (hkept n (h.keys n v hv)).1, fun x v => ?_⟩
  · rw [← h.texts]
    exact List.map_congr_left fun ns hns => (hkept ns (h.issued ns hns)).2
  · rw [h.vars]
    constructor
    · rintro ⟨n, hn, hv⟩
      exact ⟨n, hw x n hn, hv⟩
    · rintro ⟨n, hn, hv⟩
      have hissued := h.keys n v hv
      refine ⟨n, ?_, hv⟩
      rw [← hs'.text_of_find? hn, (hkept n hissued).2]
      exact hs.find?_text hissued

theorem Shows.addNamespace (h : scope.Shows names texts vars) (hs : names.Sound)
    (hx : names.find? x = some n) : (scope.addNamespace n).Shows names (addOnce texts x) vars := by
  obtain ⟨hissued, htext⟩ := (hs x n).1 hx
  have hmem : n ∈ scope.namespaces ↔ x ∈ texts := by
    rw [← h.texts, List.mem_map]
    constructor
    · exact fun hn => ⟨n, hn, htext⟩
    · rintro ⟨m, hm, hmx⟩
      have hfound := hs.find?_text (h.issued m hm)
      rw [hmx, hx] at hfound
      exact Option.some.inj hfound ▸ hm
  unfold Scope.addNamespace addOnce
  by_cases hn : n ∈ scope.namespaces
  · rw [if_pos hn, if_pos (hmem.1 hn)]
    exact h
  · rw [if_neg hn, if_neg (mt hmem.2 hn)]
    refine ⟨?_, ?_, by simp [h.texts, htext], h.keys, h.vars⟩
    · intro m hm
      rcases List.mem_append.1 hm with hm | hm
      · exact h.issued m hm
      · rwa [List.mem_singleton.1 hm]
    · exact h.nodup.append (List.nodup_singleton n) (by simpa using hn)

theorem Shows.unbound (h : scope.Shows names texts vars) (hx : names.find? x = some n)
    (hnew : x ∉ vars.map Prod.fst) : scope.bindings[n]? = none := by
  refine Option.eq_none_iff_forall_ne_some.2 fun v hv => hnew ?_
  exact List.mem_map.2 ⟨(x, v), (h.vars x v).2 ⟨n, hx, hv⟩, rfl⟩

theorem Shows.bind (h : scope.Shows names texts vars) (hs : names.Sound)
    (hx : names.find? x = some n) (hnew : x ∉ vars.map Prod.fst) (v : Value) :
    (scope.bind n v).Shows names texts (vars ++ [(x, v)]) := by
  have hunbound := h.unbound hx hnew
  have hbindings (m : Name) : (scope.bind n v).bindings[m]? =
      if n = m then some v else scope.bindings[m]? := by
    have hmem : n ∉ scope.bindings := by
      rw [← Std.TreeMap.isSome_getElem?_iff_mem, hunbound]
      simp
    simp only [Scope.bind, Std.TreeMap.getElem?_insertIfNew, Std.LawfulEqCmp.compare_eq_iff_eq,
      hmem, not_false_eq_true, and_true]
  refine ⟨h.issued, h.nodup, h.texts, fun m w hw => ?_, fun y w => ?_⟩
  · rw [hbindings] at hw
    split at hw
    · next hm => exact hm ▸ hs.lt_size hx
    · exact h.keys m w hw
  · rw [List.mem_append, List.mem_singleton, Prod.mk.injEq, h.vars]
    simp only [hbindings]
    constructor
    · rintro (⟨m, hm, hw⟩ | ⟨rfl, rfl⟩)
      · refine ⟨m, hm, ?_⟩
        rw [if_neg, hw]
        rintro rfl
        cases hunbound.symm.trans hw
      · exact ⟨n, hx, if_pos rfl⟩
    · rintro ⟨m, hm, hw⟩
      split at hw
      · next hnm =>
        subst hnm
        exact .inr ⟨(hs.text_of_find? hm).symm.trans (hs.text_of_find? hx),
          (Option.some.inj hw).symm⟩
      · exact .inl ⟨m, hm, hw⟩

theorem Shows.vars_iff (h : scope.Shows names texts vars) (hs : names.Sound) (v : Value) :
    (x, v) ∈ vars ↔ ∃ n, names.text n = x ∧ scope.bindings[n]? = some v := by
  rw [h.vars]
  constructor
  · rintro ⟨n, hn, hv⟩
    exact ⟨n, hs.text_of_find? hn, hv⟩
  · rintro ⟨n, rfl, hv⟩
    exact ⟨n, hs.find?_text (h.keys n v hv), hv⟩

end Scope

end ConfigClasses
