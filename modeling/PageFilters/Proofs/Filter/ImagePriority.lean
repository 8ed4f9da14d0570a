import PageFilters.Proofs.Filter.Following
import PageFilters.Proofs.Filter.OnePass

/-!
The filter for the main image at one event. Until it promotes an image it leaves the tree alone,
remembers whether a body is open, and judges an element as the complete page would have it; it
promotes an image by changing it and putting a link before it; afterwards it leaves the tree alone
for good.
-/

namespace PageFilters

namespace ImagePriority

variable {d d' : Document} {p id : NodeId} {e : Element} {around : List Element}
  {before : List Event} {f : ImagePriority} {page : Page}

structure Waits (f : ImagePriority) (before : List Event) : Prop where
  inBody : f.inBody = insideBody before
  promoted : f.promoted = 0
  preloaded : f.preloaded = []

section

variable [UrlLibrary] {url : Url} {cx : Context}

theorem source_of_other (other : e.keyword ≠ .img) (inside : List (Tree NodeData)) :
    Site.source? url ⟨[], 0, around, before, e, inside⟩ = none := by
  rw [Site.source?, if_neg]
  intro ⟨image, _⟩
  exact other image

theorem candidate_of_other (page : Page) (held : page.doc.element? id = some e)
    (other : e.keyword ≠ .img) : f.candidate? id cx page = none := by
  rw [candidate?, Chain.keyword_of_element held]
  simp [other]

theorem candidate_of_image (page : Page) (place : page.doc.Place id (e :: around))
    (held : page.doc.element? id = some e) (waits : f.Waits before)
    (noscript : cx.noscript.isSome = true ↔ ∃ e ∈ around, e.keyword = .noscript)
    (base : cx.base = some (baseAt url before)) (policy : cx.policy = Policy.usual)
    (inside : List (Tree NodeData)) (image : e.keyword = .img) :
    f.candidate? id cx page = Site.source? url ⟨[], 0, around, before, e, inside⟩ := by
  have outside : (cx.noscript.isSome || decide (limit ≤ f.promoted) || !f.inBody) = true ↔
      ¬ (insideBody before = true ∧ ∀ e ∈ around, e.keyword ≠ .noscript) := by
    rw [waits.inBody, waits.promoted, not_and_or, Bool.or_eq_true, Bool.or_eq_true, noscript]
    simp [limit, or_comm]
  have keyword : page.doc.keyword? id = some .img := by
    rw [Chain.keyword_of_element held, image]
  have marked : (page.doc.keyword? id != some .img || !cx.policy page.doc id) = true ↔
      ¬ ∀ x ∈ e :: around, x.mayChange = true := by
    rw [← place.usual_iff, policy, keyword]
    simp
  rw [candidate?, Site.source?, held, base]
  simp only [outside, marked]
  by_cases body : insideBody before = true ∧ ∀ e ∈ around, e.keyword ≠ .noscript
  · rw [if_neg (not_not.mpr body)]
    by_cases clear : ∀ x ∈ e :: around, x.mayChange = true
    · rw [if_neg (not_not.mpr clear), if_pos ⟨image, body.1, body.2, clear⟩, Option.bind_some]
    · rw [if_pos clear, if_neg fun holds => clear holds.2.2.2]
  · rw [if_pos body, if_neg fun holds => body ⟨holds.2.1, holds.2.2.1⟩]

theorem candidate_eq {c : Chain Builtin} (place : d.Place id (e :: around))
    (held : d.element? id = some e) (follows : c.Follows url around before)
    (policy : c.policy = Policy.usual) (waits : f.Waits before) (inside : List (Tree NodeData)) :
    f.candidate? id (c.follow d id).context ((c.follow d id).page d) =
      Site.source? url ⟨[], 0, around, before, e, inside⟩ := by
  by_cases image : e.keyword = .img
  · have same : c.follow d id = c := by
      rw [Chain.follow, Chain.keyword_of_element held, image]
    rw [same]
    exact candidate_of_image (c.page d) place held waits follows.noscript follows.base
      policy inside image
  · rw [source_of_other image]
    exact candidate_of_other ((c.follow d id).page d) held image

theorem onStart_eq (held : page.doc.element? id = some e) :
    onStart id cx page f =
      if e.keyword = .head then (page, { f with inHead := true })
      else if e.keyword = .body then (page, { f with inBody := true })
      else match f.candidate? id cx page with
        | none => (page, f)
        | some src => prioritize id src page f := by
  rw [onStart, Chain.keyword_of_element held]
  cases e.keyword <;> rfl

theorem onStart_waits (page : Page) (held : page.doc.element? id = some e)
    (waits : f.Waits before) (skipped : f.candidate? id cx page = none) :
    (onStart id cx page f).1 = page ∧ (onStart id cx page f).2.Waits (before ++ [.start e]) := by
  rw [onStart_eq held, skipped]
  have inBody := insideBody_start before e
  by_cases head : e.keyword = .head
  · rw [if_pos head]
    refine ⟨rfl, ?_, waits.promoted, waits.preloaded⟩
    simp [inBody, head, waits.inBody]
  · rw [if_neg head]
    by_cases body : e.keyword = .body
    · rw [if_pos body]
      refine ⟨rfl, ?_, waits.promoted, waits.preloaded⟩
      simp [inBody, body]
    · rw [if_neg body]
      refine ⟨rfl, ?_, waits.promoted, waits.preloaded⟩
      simp [inBody, body, waits.inBody]

theorem onStart_promotes {src : String} (page : Page)
    (held : page.doc.element? id = some e) (chosen : f.candidate? id cx page = some src) :
    onStart id cx page f = prioritize id src page f := by
  have image : e.keyword = .img := by
    by_contra other
    rw [candidate_of_other page held other] at chosen
    cases chosen
  rw [onStart_eq held, image, chosen]
  rfl

theorem onStart_promoted (id : NodeId) (cx : Context) (page : Page) (done : 1 ≤ f.promoted) :
    (onStart id cx page f).1 = page ∧ 1 ≤ (onStart id cx page f).2.promoted := by
  have none : f.candidate? id cx page = none := by
    rw [candidate?, if_pos (by simp [limit, done])]
  unfold onStart
  split
  · exact ⟨rfl, done⟩
  · exact ⟨rfl, done⟩
  · rw [none]
    exact ⟨rfl, done⟩

theorem onEnd_keeps (id : NodeId) (cx : Context) (page : Page) (f : ImagePriority) :
    (onEnd id cx page f).1 = page ∧ (onEnd id cx page f).2.promoted = f.promoted ∧
      (onEnd id cx page f).2.preloaded = f.preloaded := by
  unfold onEnd
  split
  · exact ⟨rfl, rfl, rfl⟩
  · exact ⟨rfl, rfl, rfl⟩
  · exact ⟨rfl, rfl, rfl⟩

theorem onEnd_waits (cx : Context) (page : Page) (held : page.doc.element? id = some e)
    (waits : f.Waits before) : (onEnd id cx page f).2.Waits (before ++ [.stop e]) := by
  obtain ⟨_, promoted, preloaded⟩ := onEnd_keeps id cx page f
  refine ⟨?_, promoted.trans waits.promoted, preloaded.trans waits.preloaded⟩
  rw [insideBody_stop, onEnd, Chain.keyword_of_element held, ← waits.inBody]
  cases e.keyword <;> rfl

end

theorem preload_eq (page : Page) {src : String} (fresh : f.preloaded = [])
    (done : (page.doc.create (.element (Element.preloading src))).2.insertBefore? id page.doc.size =
      some d') :
    preload id src page f =
      ({ page with doc := d' }.notify (.preloaded src), { f with preloaded := [src] }) := by
  have created : page.doc.create (.element (Element.preloading src)) =
      (page.doc.size, (page.doc.create (.element (Element.preloading src))).2) := rfl
  rw [preload, if_neg (by simp [isPreloaded, fresh]), preloadLink_eq, created]
  simp only [done, fresh]

theorem prioritize_extends (page : Page) (grown : Document.Extends d p [id] page.doc)
    (linked : d.Linked) (container : d.IsContainer p)
    (held : page.doc.data? id = some (.element e)) (leaf : page.doc.children id = [])
    (fresh : f.preloaded = []) (src : String) :
    ∃ link d', (prioritize id src page f).1.doc = d' ∧ 1 ≤ (prioritize id src page f).2.promoted ∧
      Document.Extends d p [link, id] d' ∧
      d'.data? link = some (.element (Element.preloading src)) ∧ d'.children link = [] ∧
      d'.data? id = some (.element e.promoted) ∧ d'.children id = [] := by
  have new := grown.fresh linked container.lt_size (List.mem_singleton.mpr rfl)
  have changed := grown.modify new promote
  have there := changed.sound.child_lt_size
    (changed.mem_children container.lt_size (List.mem_singleton.mpr rfl))
  have alone : Document.Extends d p ([] ++ [id]) (page.doc.modifyElement id promote) := changed
  obtain ⟨d', done, placed, linkHeld, linkLeaf, others⟩ :=
    alone.insertBefore container (.element (Element.preloading src))
  obtain ⟨kept, children⟩ := others id new there
  have made := preload_eq { page with doc := page.doc.modifyElement id promote } fresh done
  refine ⟨_, d', ?_, ?_, placed, linkHeld, linkLeaf, ?_, ?_⟩
  · rw [prioritize, made]
    exact Chain.setOutcome_doc _ _ _
  · rw [prioritize, made]
    exact Nat.succ_le_succ (Nat.zero_le _)
  · rw [kept, Document.data_modifyElement, if_pos rfl, held, ← promote_eq]
    rfl
  · rw [children, (Document.sameShape_modifyElement _ _ _ _).2.1, leaf]

end ImagePriority

end PageFilters
