import PageFilters.Proofs.Filter.Outcomes

/-!
The filter for the main image, driven by hand. Its hooks may be called in any order, on any numbers
and in any contexts, while the page is edited at will or exchanged for another one. It still
promotes at most one image from one start of a page to the next, touches nothing otherwise, and
remembers as preloaded just the source before whose image it put a link.
-/

namespace PageFilters

namespace ImagePriority

/-- The node stands where it stood, with the newest node right before it. -/
def LinkedBefore (id : NodeId) (d d' : Document) : Prop :=
  ∃ p before after, d.children p = before ++ id :: after ∧
    d'.children p = before ++ d.size :: id :: after

/-- The call that promotes an image: it makes one node, a link, changes the image, and changes no
other node. If the link found its place, it is remembered. -/
structure Promotion (id : NodeId) (src : String) (x y : Page × ImagePriority) : Prop where
  first : x.2.promoted = 0
  promoted : y.2.promoted = 1
  source : (x.1.doc.element? id).bind (Element.value? "src") = some src
  size : y.1.doc.size = x.1.doc.size + 1
  link : y.1.doc.element? x.1.doc.size = some (Element.preloading src)
  image : y.1.doc.element? id = (x.1.doc.element? id).map Element.promoted
  others : ∀ other < x.1.doc.size, other ≠ id → y.1.doc.data? other = x.1.doc.data? other
  recorded : y.2.preloaded = [] ∨ y.2.preloaded = [src] ∧ LinkedBefore id x.1.doc y.1.doc

section

variable {page : Page} {f : ImagePriority} {id : NodeId} {src : String}

theorem prioritize_eq (fresh : f.preloaded = []) (id : NodeId) (src : String) (page : Page) :
    let made := ((page.doc.modifyElement id Element.promoted).create
      (.element (Element.preloading src))).2
    let linked := page.doc.promoteImage? id src
    (prioritize id src page f).1.doc = linked.getD made ∧
      (prioritize id src page f).2.promoted = f.promoted + 1 ∧
      (prioritize id src page f).2.preloaded = if linked.isSome then [src] else [] := by
  intro made linked
  have size : (page.doc.modifyElement id Element.promoted).size = page.doc.size := by
    simp [Document.modifyElement]
  have created : (page.doc.modifyElement id Element.promoted).create
      (.element (Element.preloading src)) = (page.doc.size, made) := Prod.ext size rfl
  have unseen : f.isPreloaded src = false := by simp [isPreloaded, fresh]
  rw [prioritize, preload, unseen, promote_eq_promoted, preloadLink_eq]
  simp only [Page.applied, Chain.setOutcome_doc, created, Bool.false_eq_true, if_false]
  rw [show made.insertBefore? id page.doc.size = linked from rfl]
  cases linked with
  | none => exact ⟨rfl, rfl, fresh⟩
  | some d => exact ⟨rfl, rfl, by simp [fresh]⟩

theorem prioritize_nodes (sound : page.doc.WellFormed) (fresh : f.preloaded = []) (id : NodeId)
    (src : String) :
    (prioritize id src page f).1.doc.size = page.doc.size + 1 ∧
      ∀ x, (prioritize id src page f).1.doc.data? x =
        if x = page.doc.size then some (.element (Element.preloading src))
        else (page.doc.modifyElement id Element.promoted).data? x := by
  have changed := Document.modify_wellFormed sound id Element.promoted
  have size : (page.doc.modifyElement id Element.promoted).size = page.doc.size := by
    simp [Document.modifyElement]
  have made : ∀ x, ((page.doc.modifyElement id Element.promoted).create
      (.element (Element.preloading src))).2.data? x =
        if x = page.doc.size then some (.element (Element.preloading src))
        else (page.doc.modifyElement id Element.promoted).data? x := by
    intro x
    rw [Document.data_create, size]
  rw [(prioritize_eq fresh id src page).1]
  cases done : page.doc.promoteImage? id src with
  | none => exact ⟨by simp [Document.modifyElement], made⟩
  | some d =>
    obtain ⟨_, _, _, _, _, _, attaches⟩ := Document.insertBefore_attaches
      (Document.create_wellFormed changed _).toLinked done
    exact ⟨Document.size_promoteImage sound done, fun x => (attaches.data x).trans (made x)⟩

theorem promoteImage_linked {d d' : Document} (sound : d.WellFormed)
    (done : d.promoteImage? id src = some d') : LinkedBefore id d d' := by
  have changed := Document.modify_wellFormed sound id Element.promoted
  obtain ⟨p, before, after, _, siblings, _, attaches⟩ := Document.insertBefore_attaches
    (Document.create_wellFormed changed _).toLinked done
  refine ⟨p, before, after, ?_, ?_⟩
  · rw [Document.children_create, (Document.sameShape_modifyElement ..).2.1] at siblings
    exact siblings
  · rw [attaches.children, if_pos rfl]

theorem prioritize_promotes (sound : page.doc.WellFormed) (first : f.promoted = 0)
    (fresh : f.preloaded = [])
    (source : (page.doc.element? id).bind (Element.value? "src") = some src) :
    Promotion id src (page, f) (prioritize id src page f) := by
  obtain ⟨doc, promoted, preloaded⟩ := prioritize_eq fresh id src page
  obtain ⟨size, data⟩ := prioritize_nodes sound fresh id src
  obtain ⟨e, held, _⟩ := Option.bind_eq_some_iff.mp source
  have held := Document.data_of_element held
  have old : ∀ x < page.doc.size, (prioritize id src page f).1.doc.data? x =
      (page.doc.modifyElement id Element.promoted).data? x := by
    intro x inside
    rw [data, if_neg (Nat.ne_of_lt inside)]
  constructor
  case first => exact first
  case promoted => rw [promoted, first]
  case source => exact source
  case size => exact size
  case link =>
    apply Document.element_of_data
    rw [data, if_pos rfl]
  case image =>
    rw [Document.element_of_data held]
    apply Document.element_of_data
    rw [old id (Document.lt_size_of_data held), Document.data_modifyElement, if_pos rfl, held]
    rfl
  case others =>
    intro x inside other
    rw [old x inside, Document.data_modifyElement, if_neg other]
  case recorded =>
    rw [preloaded, doc]
    cases done : page.doc.promoteImage? id src with
    | none => exact .inl rfl
    | some d => exact .inr ⟨rfl, promoteImage_linked sound done⟩

end

end ImagePriority

section

variable [UrlLibrary]

def Call.hook [PageFilter φ] : Call NodeId → Hook φ
  | .startDocument => PageFilter.startDocument
  | .startElement id => PageFilter.startElement id
  | .endElement id => PageFilter.endElement id
  | .endDocument => PageFilter.endDocument

inductive Step where
  | hook (call : Call NodeId) (cx : Context)
  | edit (e : Edit)
  /-- Another page takes the place of the one so far. -/
  | page (edits : List Edit) (record : OutcomeRecord) (notices : List Notice)

namespace Step

def begins : Step → Bool
  | hook .startDocument _ => true
  | _ => false

def apply [PageFilter φ] : Page × φ → Step → Page × φ
  | (p, f), hook call cx => call.hook cx p f
  | (p, f), edit e => ({ p with doc := p.doc.edit e }, f)
  | (_, f), page edits record notices => (⟨Document.empty.editAll edits, record, notices⟩, f)

end Step

namespace ImagePriority

def driven (steps : List Step) : Page × ImagePriority :=
  steps.foldl Step.apply (⟨.empty, {}, []⟩, {})

theorem driven_concat (past : List Step) (s : Step) :
    driven (past ++ [s]) = Step.apply (driven past) s :=
  List.foldl_concat ..

structure Idle (call : Call NodeId) (x y : Page × ImagePriority) : Prop where
  doc : y.1.doc = x.1.doc
  forgets : call = .startDocument → y.2 = {}
  keeps : call ≠ .startDocument →
    y.2.promoted = x.2.promoted ∧ y.2.preloaded = x.2.preloaded

variable {page : Page} {f : ImagePriority} {id : NodeId} {cx : Context} {src : String}

theorem candidate_source (chosen : f.candidate? id cx page = some src) :
    f.promoted = 0 ∧ (page.doc.element? id).bind (Element.value? "src") = some src := by
  cases held : page.doc.element? id with
  | none => simp [candidate?, Document.keyword?, held] at chosen
  | some e =>
    obtain ⟨_, first, eligible⟩ := candidate_spec held chosen
    exact ⟨first, (Element.eligibleSrc_spec eligible).1⟩

theorem hook_cases (call : Call NodeId) (cx : Context) (sound : page.doc.WellFormed)
    (fresh : f.promoted = 0 → f.preloaded = []) :
    Idle call (page, f) (call.hook cx page f) ∨
      ∃ id src, call = .startElement id ∧ Promotion id src (page, f) (call.hook cx page f) := by
  cases call with
  | startDocument => exact .inl ⟨rfl, fun _ => rfl, fun other => absurd rfl other⟩
  | endDocument => exact .inl ⟨rfl, nofun, fun _ => ⟨rfl, rfl⟩⟩
  | endElement id =>
    obtain ⟨same, promoted, preloaded⟩ := onEnd_keeps id cx page f
    exact .inl ⟨congrArg Page.doc same, nofun, fun _ => ⟨promoted, preloaded⟩⟩
  | startElement id =>
    change Idle _ _ (onStart id cx page f) ∨ ∃ _ _, _ ∧ Promotion _ _ _ (onStart id cx page f)
    have idle : ∀ {g : ImagePriority}, g.promoted = f.promoted → g.preloaded = f.preloaded →
        Idle (.startElement id) (page, f) (page, g) := fun promoted preloaded =>
      ⟨rfl, nofun, fun _ => ⟨promoted, preloaded⟩⟩
    unfold onStart
    split
    · exact .inl (idle rfl rfl)
    · exact .inl (idle rfl rfl)
    · split
      · exact .inl (idle rfl rfl)
      · next src chosen =>
        obtain ⟨first, source⟩ := candidate_source chosen
        exact .inr ⟨id, src, rfl, prioritize_promotes sound first (fresh first) source⟩

theorem editsOnly : PageFilter.EditsOnly ImagePriority := by
  constructor
  · exact fun _ p _ => .refl p.doc
  · exact fun id => onStart_editsOnly id
  · exact fun id => onEnd_editsOnly id
  · exact fun _ p _ => .refl p.doc

theorem driven_wellFormed (steps : List Step) : (driven steps).1.doc.WellFormed := by
  induction steps using List.reverseRecOn with
  | nil => exact Document.empty_wellFormed
  | append_singleton past s ih =>
    rw [driven_concat]
    generalize driven past = x at ih ⊢
    obtain ⟨p, f⟩ := x
    cases s with
    | hook call cx =>
      have becomes : p.doc.Becomes (call.hook cx p f).1.doc := by
        cases call with
        | startDocument => exact editsOnly.startDocument cx p f
        | startElement id => exact editsOnly.startElement id cx p f
        | endElement id => exact editsOnly.endElement id cx p f
        | endDocument => exact editsOnly.endDocument cx p f
      exact becomes.wellFormed ih
    | edit e => exact Document.edit_wellFormed ih e
    | page edits record notices =>
      exact Document.editAll_wellFormed Document.empty_wellFormed edits

/-- What the filter remembers of steps: nothing, or the one image that it has promoted since the
page started. -/
inductive Remembers (past : List Step) : Prop where
  | nothing (promoted : (driven past).2.promoted = 0) (preloaded : (driven past).2.preloaded = [])
  | image {early late : List Step} {s : Step} {id : NodeId} {src : String}
      (split : past = early ++ s :: late) (same : ∀ u ∈ late, u.begins = false)
      (promotion : Promotion id src (driven early) (driven (early ++ [s])))
      (promoted : (driven past).2.promoted = 1)
      (preloaded : (driven past).2.preloaded = (driven (early ++ [s])).2.preloaded)

namespace Remembers

variable {past : List Step} {s : Step}

theorem fresh (remembers : Remembers past) (none : (driven past).2.promoted = 0) :
    (driven past).2.preloaded = [] := by
  cases remembers with
  | nothing _ preloaded => exact preloaded
  | image _ _ _ promoted =>
    rw [promoted] at none
    cases none

theorem keep (remembers : Remembers past) (same : s.begins = false)
    (promoted : (driven (past ++ [s])).2.promoted = (driven past).2.promoted)
    (preloaded : (driven (past ++ [s])).2.preloaded = (driven past).2.preloaded) :
    Remembers (past ++ [s]) := by
  cases remembers with
  | nothing none empty => exact .nothing (promoted.trans none) (preloaded.trans empty)
  | image split later promotion one kept =>
    refine .image (by rw [split, List.append_assoc, List.cons_append]) ?_ promotion
      (promoted.trans one) (preloaded.trans kept)
    intro u member
    rcases List.mem_append.mp member with old | new
    · exact later u old
    · exact List.mem_singleton.mp new ▸ same

end Remembers

theorem Remembers.cases {past : List Step} (remembers : Remembers past) (call : Call NodeId)
    (cx : Context) :
    Idle call (driven past) (driven (past ++ [.hook call cx])) ∨
      ∃ id src, call = .startElement id ∧
        Promotion id src (driven past) (driven (past ++ [.hook call cx])) := by
  rw [driven_concat]
  exact hook_cases call cx (driven_wellFormed past) remembers.fresh

theorem begins_hook {call : Call NodeId} (cx : Context) (other : call ≠ .startDocument) :
    (Step.hook call cx).begins = false := by
  cases call with
  | startDocument => exact absurd rfl other
  | _ => rfl

theorem remembers (past : List Step) : Remembers past := by
  induction past using List.reverseRecOn with
  | nil => exact .nothing rfl rfl
  | append_singleton past s ih =>
    have next := driven_concat past s
    cases s with
    | edit e => exact ih.keep rfl (by rw [next]; rfl) (by rw [next]; rfl)
    | page edits record notices => exact ih.keep rfl (by rw [next]; rfl) (by rw [next]; rfl)
    | hook call cx =>
      rcases ih.cases call cx with idle | ⟨id, src, _, made⟩
      · by_cases start : call = .startDocument
        · have reset := idle.forgets start
          exact .nothing (by rw [reset]) (by rw [reset])
        · obtain ⟨promoted, preloaded⟩ := idle.keeps start
          exact ih.keep (begins_hook cx start) promoted preloaded
      · exact .image rfl (by simp) made made.promoted rfl

theorem promoted_stays {past : List Step} (one : (driven past).2.promoted = 1) {more : List Step}
    (same : ∀ u ∈ more, u.begins = false) : (driven (past ++ more)).2.promoted = 1 := by
  induction more using List.reverseRecOn with
  | nil => rwa [List.append_nil]
  | append_singleton more s ih =>
    have before := ih fun u member => same u (List.mem_append_left _ member)
    have still := same s (by simp)
    rw [← List.append_assoc]
    cases s with
    | edit e =>
      rw [driven_concat]
      exact before
    | page edits record notices =>
      rw [driven_concat]
      exact before
    | hook call cx =>
      rcases (remembers (past ++ more)).cases call cx with idle | ⟨_, _, _, made⟩
      · refine (idle.keeps ?_).1.trans before
        rintro rfl
        cases still
      · exact made.promoted

def Promotes (past : List Step) (s : Step) : Prop :=
  ∃ id src, Promotion id src (driven past) (driven (past ++ [s]))

/-- However the filter is driven: it has promoted at most one image; a call promotes an image or
leaves the page alone; between two promotions a page starts; and what is preloaded is the source of
the image that was promoted last, if the link came right before it. -/
theorem driven_promotes_once (past : List Step) :
    (driven past).2.promoted ≤ 1 ∧
      (∀ call cx, Idle call (driven past) (driven (past ++ [.hook call cx])) ∨
        ∃ id src, call = .startElement id ∧
          Promotion id src (driven past) (driven (past ++ [.hook call cx]))) ∧
      (∀ s middle s', Promotes past s → Promotes (past ++ s :: middle) s' →
        ∃ u ∈ middle, u.begins = true) ∧
      ((driven past).2.preloaded = [] ∨
        ∃ early s late id src, past = early ++ s :: late ∧ (∀ u ∈ late, u.begins = false) ∧
          Promotion id src (driven early) (driven (early ++ [s])) ∧
          LinkedBefore id (driven early).1.doc (driven (early ++ [s])).1.doc ∧
          (driven past).2.promoted = 1 ∧ (driven past).2.preloaded = [src]) := by
  have known := remembers past
  refine ⟨?_, known.cases, ?_, ?_⟩
  · cases known with
    | nothing promoted => omega
    | image _ _ _ promoted => omega
  · rintro s middle s' ⟨_, _, made⟩ ⟨_, _, again⟩
    by_contra none
    have same : ∀ u ∈ middle, u.begins = false := by
      intro u member
      rw [← Bool.not_eq_true]
      exact fun start => none ⟨u, member, start⟩
    have one := promoted_stays made.promoted same
    have zero := again.first
    rw [List.append_assoc] at one
    rw [show past ++ s :: middle = past ++ ([s] ++ middle) from rfl, one] at zero
    cases zero
  · cases known with
    | nothing _ preloaded => exact .inl preloaded
    | @image early late s id src split same promotion promoted preloaded =>
      rcases promotion.recorded with empty | ⟨recorded, linked⟩
      · exact .inl (preloaded.trans empty)
      · exact .inr ⟨early, s, late, id, src, split, same, promotion, linked, promoted,
          preloaded.trans recorded⟩

end ImagePriority

end

open ImagePriority in
example :
    let base : AsciiUrl := ⟨"https", some { host := .name "a.example" }, .segments [""], none, none⟩
    let cx : Context := ⟨some base, none, fun _ _ => true⟩
    let y := driven [.edit (.create (.element ⟨"body", []⟩)),
      .edit (.create (.element ⟨"img", [⟨"src", some "a.png", .double⟩]⟩)),
      .hook (.startElement 1) cx, .hook (.startElement 2) cx]
    (y.2.promoted, y.2.preloaded, y.1.doc.size, y.1.doc.parent? 3) = (1, [], 4, none) := by
  decide +kernel

end PageFilters
