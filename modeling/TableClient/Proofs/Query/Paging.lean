import Mathlib
import TableClient.Proofs.Conversation
import TableClient.Proofs.Query.Resume

/-!
# What the pages of a query show

The user of a query asks whether there is another item, takes items and passes over items, in any
order, while the store answers every request for a page. What happens is written down event by
event, and told from the events alone: which items are handed over, when a page is asked for and
with what, and when there is nothing more.

Results:
* `kept_append_page`: what a page adds to the items that are kept.
* `Stands.hasNext`: what asking for another item does to the state of the results.
* `Reads.stands`: the state of the results is known from the events.
* `reads_in_order`: the items handed over are those of the pages up to the limit, in order; pages
  are asked for until the results have ended and not behind that.
-/

namespace TableClient.Pages

open Protocol (Page)

/-! ## Events -/

/-- What happens while results are read. -/
inductive Event where
  /-- A page was asked for and came. -/
  | page (request : Request) (page : Page)
  /-- The user asked whether there is another item. -/
  | hasNext (outcome : Except Error Bool)
  /-- The user took an item. -/
  | next (outcome : Except Error AttributeMap)
  /-- The user passed over an item. -/
  | advance (outcome : Except Error Unit)

namespace Event

/-- The page that came. -/
def page? : Event → Option Page
  | .page _ received => some received
  | _ => none

/-- The item that was taken or passed over, if there was one: the item itself when it was handed
    over, and nothing when it was passed over. -/
def taken? : Event → Option (Option AttributeMap)
  | .next (.ok item) => some (some item)
  | .advance (.ok ()) => some none
  | _ => none

/-- The user was told that there is nothing more. -/
def SaysEnd : Event → Prop
  | .hasNext outcome => outcome = .ok false
  | .next outcome => outcome = .error (.query .noMoreItems)
  | .advance outcome => outcome = .error (.query .noMoreItems)
  | .page _ _ => False

/-- An event that says the end brings no page and takes no item. -/
theorem SaysEnd.brings_nothing {event : Event} (h : event.SaysEnd) :
    event.page? = none ∧ event.taken? = none := by
  cases event with
  | page => cases h
  | hasNext => exact ⟨rfl, rfl⟩
  | next outcome =>
    obtain rfl := h
    exact ⟨rfl, rfl⟩
  | advance outcome =>
    obtain rfl := h
    exact ⟨rfl, rfl⟩

end Event

/-- The pages that came, in order. -/
def pagesOf (events : List Event) : List Page := events.filterMap Event.page?

/-- The items that were taken or passed over, in order. -/
def takenOf (events : List Event) : List (Option AttributeMap) := events.filterMap Event.taken?

/-- An exchange with a store that answers the request, if there is one, with a page. -/
inductive Answered {α : Type} : Exchange α → List Event → α → Prop
  | silent (result : α) : Answered (.done result) [] result
  | page {request : Request} {receive : Reply → α} {reply : Reply} {page : Page}
      (h : reply.as Page = .ok page) :
      Answered (.ask request receive) [.page request page] (receive reply)

/-- The events of a query from its first page on, and the results as they stand behind them. -/
inductive Reads (query : Query) : List Event → Pages → Prop
  | run {events : List Event} {pages : Pages} (h : Answered query.run events (.ok pages)) :
      Reads query events pages
  | hasNext {events more : List Event} {pages after : Pages} {outcome : Except Error Bool}
      (hreads : Reads query events pages) (h : Answered pages.hasNext more (outcome, after)) :
      Reads query (events ++ more ++ [.hasNext outcome]) after
  | next {events more : List Event} {pages after : Pages} {outcome : Except Error AttributeMap}
      (hreads : Reads query events pages) (h : Answered pages.next more (outcome, after)) :
      Reads query (events ++ more ++ [.next outcome]) after
  | advance {events more : List Event} {pages after : Pages} {outcome : Except Error Unit}
      (hreads : Reads query events pages) (h : Answered pages.advance more (outcome, after)) :
      Reads query (events ++ more ++ [.advance outcome]) after

/-! ## What the events tell -/

/-- The items of the pages that came, up to the limit. -/
def kept (limit : Option UInt64) (events : List Event) : List AttributeMap :=
  let items := (pagesOf events).flatMap Page.items
  match limit with
  | some limit => items.take limit.toNat
  | none => items

/-- There are no more pages to ask for: the last page has no key to go on from, or it is empty and
    not the first one, or as many items were kept as the limit allows. -/
def Ended (limit : Option UInt64) (events : List Event) : Prop :=
  ∃ page, (pagesOf events).getLast? = some page ∧
    (page.lastKey = none ∨ (1 < (pagesOf events).length ∧ page.items = []) ∨
      ∃ n, limit = some n ∧ n.toNat ≤ (kept limit events).length)

/-- Every item that was kept has been taken or passed over. -/
def Exhausted (limit : Option UInt64) (events : List Event) : Prop :=
  (takenOf events).length = (kept limit events).length

/-- The request for the page behind the last one: from its key on, and for what is left of the
    limit. -/
def Continues (query : Query) (events : List Event) (request : Request) : Prop :=
  ∃ plan page key, query.plan = .ok plan ∧ (pagesOf events).getLast? = some page ∧
    page.lastKey = some key ∧ request = plan.toRequest (some key)
      (query.limit.map fun n => UInt64.ofNat (n.toNat - (kept query.limit events).length))

/-- An item that was handed over is this one; one that was passed over may be any. -/
def Shows (taken : Option AttributeMap) (item : AttributeMap) : Prop :=
  ∀ shown ∈ taken, shown = item

/-! ## Exchanges -/

section
variable {α β : Type} {events : List Event} {result : α}

theorem answered_cases {exchange : Exchange α} (h : Answered exchange events result) :
    (exchange = .done result ∧ events = []) ∨
      ∃ request reply page, exchange.request? = some request ∧ reply.as Page = .ok page ∧
        events = [.page request page] ∧ result = exchange.answer reply := by
  cases h with
  | silent result => exact .inl ⟨rfl, rfl⟩
  | page h => exact .inr ⟨_, _, _, rfl, h, rfl, rfl⟩

theorem answered_map {f : α → β} {exchange : Exchange α} {result : β} :
    Answered (exchange.map f) events result ↔
      ∃ before, Answered exchange events before ∧ result = f before := by
  constructor
  · intro h
    cases exchange with
    | done before =>
      cases h
      exact ⟨before, .silent before, rfl⟩
    | ask request receive =>
      cases h with
      | page h => exact ⟨_, .page h, rfl⟩
  · rintro ⟨before, h, rfl⟩
    cases h with
    | silent => exact .silent _
    | page h => exact .page h

end

/-! ## The state of the results -/

variable {query : Query} {events more : List Event} {pages after : Pages}

/-- The results stand where the events have led. -/
structure Stands (query : Query) (events : List Event) (pages : Pages) : Prop where
  plan : query.plan = .ok pages.request
  limit : pages.limit = query.limit
  fetched : pages.fetched = (kept query.limit events).length
  /-- What was taken goes through the items that were kept, up to those at hand. -/
  atHand : ∃ passed, kept query.limit events = passed ++ pages.items ∧
    List.Forall₂ Shows (takenOf events) passed
  lastKey : ∃ page, (pagesOf events).getLast? = some page ∧
    pages.lastKey = if 1 < (pagesOf events).length ∧ page.items = [] then none else page.lastKey

theorem pagesOf_append : pagesOf (events ++ more) = pagesOf events ++ pagesOf more :=
  List.filterMap_append

theorem takenOf_append : takenOf (events ++ more) = takenOf events ++ takenOf more :=
  List.filterMap_append

theorem pagesOf_append_page (request : Request) (page : Page) :
    pagesOf (events ++ [.page request page]) = pagesOf events ++ [page] :=
  pagesOf_append

theorem pagesOf_append_of_none {event : Event} (h : event.page? = none) :
    pagesOf (events ++ [event]) = pagesOf events := by
  rw [pagesOf_append]
  simp [pagesOf, h]

theorem takenOf_append_of_none {event : Event} (h : event.taken? = none) :
    takenOf (events ++ [event]) = takenOf events := by
  rw [takenOf_append]
  simp [takenOf, h]

/-- What is kept is known from the pages. -/
theorem kept_congr (limit : Option UInt64) (h : pagesOf events = pagesOf more) :
    kept limit events = kept limit more := by
  simp only [kept, h]

/-- The items that are kept when this many may still be. -/
def admitted (remaining : Option ℕ) (items : List AttributeMap) : List AttributeMap :=
  match remaining with
  | some n => items.take n
  | none => items

theorem admitted_eq_nil_iff {remaining : Option ℕ} (h : remaining ≠ some 0)
    {items : List AttributeMap} : admitted remaining items = [] ↔ items = [] := by
  cases remaining with
  | none => exact Iff.rfl
  | some n =>
    have hn : n ≠ 0 := fun hzero => h (congrArg some hzero)
    simp [admitted, hn]

/-- A page adds its items as far as the limit allows. -/
theorem kept_append_page (limit : Option UInt64) (events : List Event) (request : Request)
    (page : Page) :
    kept limit (events ++ [.page request page]) = kept limit events ++
      admitted (limit.map fun n => n.toNat - (kept limit events).length) page.items := by
  have hitems : (pagesOf (events ++ [.page request page])).flatMap Page.items =
      (pagesOf events).flatMap Page.items ++ page.items := by
    rw [pagesOf_append_page, List.flatMap_append, List.flatMap_singleton]
  cases limit with
  | none => simp [kept, hitems, admitted]
  | some n =>
    simp only [kept, hitems, Option.map_some, admitted, List.take_append, List.length_take]
    congr 2
    omega

namespace Stands

theorem remaining_eq (h : Stands query events pages) :
    pages.remaining = query.limit.map fun n => n.toNat - (kept query.limit events).length := by
  rw [remaining, h.limit, h.fetched]

/-- The results have no more pages to ask for exactly if they have ended. -/
theorem ended_iff (h : Stands query events pages) :
    Ended query.limit events ↔ pages.lastKey = none ∨ pages.remaining = some 0 := by
  obtain ⟨page, hpage, hlast⟩ := h.lastKey
  have hlimit : pages.remaining = some 0 ↔
      ∃ n, query.limit = some n ∧ n.toNat ≤ (kept query.limit events).length := by
    rw [h.remaining_eq]
    simp [Nat.sub_eq_zero_iff_le]
  have hkey : pages.lastKey = none ↔
      page.lastKey = none ∨ (1 < (pagesOf events).length ∧ page.items = []) := by
    rw [hlast]
    split_ifs with hempty
    · simp [hempty]
    · simp [hempty]
  rw [hlimit, hkey, Ended, hpage]
  simp only [Option.some.injEq, exists_eq_left', or_assoc]

theorem exhausted_iff (h : Stands query events pages) :
    Exhausted query.limit events ↔ pages.items = [] := by
  obtain ⟨passed, hkept, htaken⟩ := h.atHand
  rw [Exhausted, hkept, htaken.length_eq, List.length_append]
  constructor
  · intro hlen
    exact List.eq_nil_of_length_eq_zero (by omega)
  · intro hnil
    rw [hnil]
    rfl

/-- The first page is asked for with the whole limit. -/
theorem run (h : Answered query.run events (.ok pages)) :
    Stands query events pages ∧ ∃ plan request page, query.plan = .ok plan ∧
      request = plan.toRequest none query.limit ∧ events = [.page request page] := by
  unfold Query.run at h
  cases hplan : query.plan with
  | error error =>
    rw [hplan] at h
    cases h
  | ok plan =>
    simp only [hplan] at h
    obtain ⟨⟨outcome, received⟩, hfetch, hok⟩ := answered_map.mp h
    rcases answered_cases hfetch with ⟨hdone, -⟩ | ⟨request, reply, page, hask, hpage, rfl, hanswer⟩
    · cases hdone
    · rw [fetch_answer, hpage] at hanswer
      cases hanswer
      obtain rfl := Except.ok.inj hok
      have hrequest : request = plan.toRequest none query.limit := by
        rw [← Option.some.inj hask]
        cases hlimit : query.limit with
        | none => rfl
        | some n => simp [remaining]
      have hkept : kept query.limit [.page request page] =
          admitted (query.limit.map UInt64.toNat) page.items := by
        cases query.limit <;> simp [kept, pagesOf, Event.page?, admitted]
      refine ⟨⟨hplan, rfl, ?_, ⟨[], ?_, .nil⟩, page, rfl, rfl⟩,
        plan, request, page, rfl, hrequest, rfl⟩
      · rw [hkept]
        exact Nat.zero_add _
      · rw [hkept]
        rfl

/-- A page that is asked for from a key on. -/
theorem fetch (h : Stands query events pages) (hremaining : pages.remaining ≠ some 0)
    (key : AttributeMap) (request : Request) (page : Page) :
    Stands query (events ++ [.page request page]) (pages.withoutKey.receive (some key) page) := by
  obtain ⟨passed, hpassed, htaken⟩ := h.atHand
  have hkept := kept_append_page query.limit events request page
  rw [← h.remaining_eq] at hkept
  have htakenOf : takenOf (events ++ [.page request page]) = takenOf events :=
    takenOf_append_of_none rfl
  have hmany : 1 < (pagesOf (events ++ [.page request page])).length := by
    obtain ⟨last, hlast, -⟩ := h.lastKey
    have hne : pagesOf events ≠ [] := fun hnil => by simp [hnil] at hlast
    have := List.length_pos_iff.mpr hne
    rw [pagesOf_append_page, List.length_append, List.length_singleton]
    omega
  refine ⟨h.plan, h.limit, ?_, ⟨passed, ?_, htakenOf ▸ htaken⟩, page,
    by simp [pagesOf_append_page], ?_⟩
  · rw [hkept, List.length_append, ← h.fetched]
    rfl
  · rw [hkept, hpassed, List.append_assoc]
    rfl
  · have hempty : admitted pages.remaining page.items = [] ↔ page.items = [] :=
      admitted_eq_nil_iff hremaining
    change (if (true && (admitted pages.remaining page.items).isEmpty) = true then none
      else page.lastKey) = _
    simp only [Bool.true_and, List.isEmpty_iff, hempty, hmany, true_and]

/-- An event that brings no page and takes no item leaves the results where they stand. -/
theorem append (h : Stands query events pages) {event : Event} (hpage : event.page? = none)
    (htaken : event.taken? = none) : Stands query (events ++ [event]) pages := by
  have hpages := @pagesOf_append_of_none events event hpage
  have hkept := kept_congr query.limit hpages
  refine ⟨h.plan, h.limit, ?_, ?_, ?_⟩
  · rw [hkept, h.fetched]
  · rw [hkept, takenOf_append_of_none htaken]
    exact h.atHand
  · rw [hpages]
    exact h.lastKey

/-- The item at the front is taken or passed over. -/
theorem pop {item : AttributeMap} {items : List AttributeMap} (h : Stands query events pages)
    (hitems : pages.items = item :: items) {event : Event} (hpage : event.page? = none)
    {taken : Option AttributeMap} (htaken : event.taken? = some taken) (hshows : Shows taken item) :
    Stands query (events ++ [event]) { pages with items } := by
  have hpages := @pagesOf_append_of_none events event hpage
  have hkept := kept_congr query.limit hpages
  have htakenOf : takenOf (events ++ [event]) = takenOf events ++ [taken] := by
    rw [takenOf_append]
    simp [takenOf, htaken]
  obtain ⟨passed, hpassed, hall⟩ := h.atHand
  refine ⟨h.plan, h.limit, ?_, ⟨passed ++ [item], ?_, ?_⟩, ?_⟩
  · rw [hkept]
    exact h.fetched
  · rw [hkept, hpassed, hitems, List.append_assoc]
    rfl
  · rw [htakenOf]
    exact List.rel_append hall (.cons hshows .nil)
  · rw [hpages]
    exact h.lastKey

end Stands

/-! ## What each call does -/

/-- Asking for another item reports what is at hand, or asks for the page behind the last key and
    reports what it brought. -/
theorem hasNext_cases {outcome : Except Error Bool}
    (h : Answered pages.hasNext more (outcome, after)) :
    outcome = .ok (!after.items.isEmpty) ∧
      ((more = [] ∧ after = pages ∧
          (pages.items = [] → pages.lastKey = none ∨ pages.remaining = some 0)) ∨
        ∃ key request page, pages.items = [] ∧ pages.lastKey = some key ∧
          pages.remaining ≠ some 0 ∧
          request = pages.request.toRequest (some key) (pages.remaining.map UInt64.ofNat) ∧
          more = [.page request page] ∧ after = pages.withoutKey.receive (some key) page) := by
  rcases answered_cases h with ⟨hdone, rfl⟩ | ⟨request, reply, page, hask, hpage, rfl, hanswer⟩
  · unfold hasNext at hdone
    split_ifs at hdone with hitems hend
    · cases hdone
      have hne : pages.items ≠ [] := by simpa using hitems
      exact ⟨by simp [hne], .inl ⟨rfl, rfl, fun hnil => absurd hnil hne⟩⟩
    · cases hdone
      have hnil : pages.items = [] := by simpa using hitems
      exact ⟨by simp [hnil], .inl ⟨rfl, rfl, fun _ => by simpa using hend⟩⟩
    · cases hdone
  · obtain ⟨hitems, hremaining, key, hkey, rfl⟩ := (pages.hasNext_request? request).mp hask
    rw [hasNext_answer hask, hpage, hkey] at hanswer
    cases hanswer
    exact ⟨rfl, .inr ⟨key, _, page, hitems, hkey, hremaining, rfl, rfl, rfl⟩⟩

/-- Taking an item asks for another item first. -/
theorem next_cases {outcome : Except Error AttributeMap}
    (h : Answered pages.next more (outcome, after)) :
    ∃ asked between, Answered pages.hasNext more (asked, between) ∧
      ((∃ item items, between.items = item :: items ∧ outcome = .ok item ∧
          after = { between with items }) ∨
        (between.items = [] ∧ outcome = .error (.query .noMoreItems) ∧ after = between)) := by
  obtain ⟨⟨asked, between⟩, hasked, hresult⟩ := answered_map.mp h
  refine ⟨asked, between, hasked, ?_⟩
  rw [(hasNext_cases hasked).1] at hresult
  cases hitems : between.items with
  | nil =>
    rw [hitems] at hresult
    cases hresult
    exact .inr ⟨rfl, rfl, rfl⟩
  | cons item items =>
    simp only [hitems, List.isEmpty_cons, Bool.not_false, pop] at hresult
    cases hresult
    exact .inl ⟨item, items, rfl, rfl, rfl⟩

/-- What asking for another item does to where the results stand. -/
theorem Stands.hasNext {outcome : Except Error Bool} (h : Stands query events pages)
    (hasked : Answered pages.hasNext more (outcome, after)) :
    Stands query (events ++ more) after ∧
      (after.items = [] → Ended query.limit (events ++ more)) ∧
      ∀ event ∈ more, ∃ request page, more = [event] ∧ event = .page request page ∧
        Exhausted query.limit events ∧ ¬ Ended query.limit events ∧
          Continues query events request := by
  rcases (hasNext_cases hasked).2 with
    ⟨rfl, rfl, hend⟩ | ⟨key, request, page, hitems, hkey, hremaining, hrequest, rfl, rfl⟩
  · rw [List.append_nil]
    exact ⟨h, fun hnil => h.ended_iff.mpr (hend hnil), fun event hevent => by cases hevent⟩
  · have hstands := h.fetch hremaining key request page
    refine ⟨hstands, fun hnil => ?_, fun event hevent => ?_⟩
    · -- The page was not the first one, so it has to bring an item for the results to go on.
      refine hstands.ended_iff.mpr (.inl ?_)
      have hempty : admitted pages.remaining page.items = [] := (List.append_eq_nil_iff.mp hnil).2
      change (if (true && (admitted pages.remaining page.items).isEmpty) = true then none
        else page.lastKey) = none
      rw [hempty]
      rfl
    · obtain rfl := List.mem_singleton.mp hevent
      obtain ⟨last, hlast, hlastKey⟩ := h.lastKey
      have hnot : ¬ Ended query.limit events := by
        rw [h.ended_iff, hkey]
        simp [hremaining]
      have hlastSome : last.lastKey = some key := by
        rw [hkey] at hlastKey
        split_ifs at hlastKey
        exact hlastKey.symm
      refine ⟨request, page, rfl, rfl, h.exhausted_iff.mpr hitems, hnot, pages.request, last, key,
        h.plan, hlast, hlastSome, ?_⟩
      rw [hrequest, h.remaining_eq, Option.map_map]
      rfl

/-! ## The course of reading -/

/-- An event fits what has happened before it. -/
structure Fits (query : Query) (before : List Event) (event : Event) : Prop where
  /-- A page behind the first is asked for when nothing is at hand and the results have not ended,
      and it is the page behind the last one. -/
  page : ∀ request page, event = .page request page → pagesOf before ≠ [] →
    Exhausted query.limit before ∧ ¬ Ended query.limit before ∧ Continues query before request
  /-- The user is told that there is nothing more when nothing is at hand and the results have
      ended, and only then. -/
  finished : event.page? = none →
    (event.SaysEnd ↔ Ended query.limit before ∧ Exhausted query.limit before)

/-- Every event fits what has happened before it. -/
def Fitting (query : Query) (events : List Event) : Prop :=
  ∀ before event after, events = before ++ event :: after → Fits query before event

theorem Fitting.snoc (h : Fitting query events) {event : Event} (hfits : Fits query events event) :
    Fitting query (events ++ [event]) := by
  intro before event' after heq
  rcases List.eq_nil_or_concat after with rfl | ⟨between, last, rfl⟩
  · obtain ⟨rfl, hevent⟩ := List.append_inj' heq rfl
    obtain rfl := List.singleton_inj.mp hevent
    exact hfits
  · rw [List.concat_eq_append, ← List.cons_append, ← List.append_assoc] at heq
    exact h _ _ _ (List.append_inj' heq rfl).1

/-- A call asks for another item, which may bring a page, and then says what came of it. -/
theorem Stands.call {asked : Except Error Bool} (h : Stands query events pages)
    (hfitting : Fitting query events) (hasked : Answered pages.hasNext more (asked, after))
    {event : Event} (hpage : event.page? = none) (htold : event.SaysEnd ↔ after.items = []) :
    Fitting query (events ++ more ++ [event]) := by
  obtain ⟨hstands, hended, hmore⟩ := h.hasNext hasked
  have hfetched : Fitting query (events ++ more) := by
    cases more with
    | nil => rwa [List.append_nil]
    | cons first rest =>
      obtain ⟨request, page, hone, rfl, hcontinues⟩ := hmore first List.mem_cons_self
      rw [hone]
      refine hfitting.snoc ⟨fun request' page' heq _ => ?_, fun hnone => by cases hnone⟩
      cases heq
      exact hcontinues
  refine hfetched.snoc ⟨fun request page heq => ?_, fun _ => ?_⟩
  · rw [heq] at hpage
    cases hpage
  · rw [htold, hstands.exhausted_iff]
    exact ⟨fun hnil => ⟨hended hnil, hnil⟩, And.right⟩

/-- The state of the results is known from the events, and every event fits those before it. -/
theorem Reads.stands (h : Reads query events pages) :
    Stands query events pages ∧ Fitting query events := by
  induction h with
  | run hrun =>
    obtain ⟨hstands, plan, request, page, -, -, rfl⟩ := Stands.run hrun
    refine ⟨hstands, fun before event after heq => ?_⟩
    obtain rfl : before = [] := by
      cases before with
      | nil => rfl
      | cons first rest => simp at heq
    obtain rfl : Event.page request page = event := (List.cons.inj heq).1
    exact ⟨fun _ _ _ hne => absurd rfl hne, fun hnone => by cases hnone⟩
  | @hasNext events more pages after outcome hreads hasked ih =>
    have hstands := (ih.1.hasNext hasked).1
    refine ⟨hstands.append rfl rfl, ih.1.call ih.2 hasked rfl ?_⟩
    rw [(hasNext_cases hasked).1, Event.SaysEnd]
    simp
  | @next events more pages after outcome hreads hnext ih =>
    obtain ⟨asked, between, hasked, hresult⟩ := next_cases hnext
    have hstands := (ih.1.hasNext hasked).1
    rcases hresult with ⟨item, items, hitems, rfl, rfl⟩ | ⟨hnil, rfl, rfl⟩
    · have hshows : Shows (some item) item := fun shown hshown => Option.some.inj hshown.symm
      refine ⟨hstands.pop hitems rfl rfl hshows, ih.1.call ih.2 hasked rfl ?_⟩
      simp [Event.SaysEnd, hitems]
    · refine ⟨hstands.append rfl rfl, ih.1.call ih.2 hasked rfl ?_⟩
      simp [Event.SaysEnd, hnil]
  | @advance events more pages after outcome hreads hadvance ih =>
    obtain ⟨⟨taken, between⟩, hnext, hdropped⟩ := answered_map.mp hadvance
    obtain ⟨asked, between, hasked, hresult⟩ := next_cases hnext
    have hstands := (ih.1.hasNext hasked).1
    cases hdropped
    rcases hresult with ⟨item, items, hitems, rfl, rfl⟩ | ⟨hnil, rfl, rfl⟩
    · have hshows : Shows none item := fun shown hshown => by cases hshown
      refine ⟨hstands.pop hitems rfl rfl hshows, ih.1.call ih.2 hasked rfl ?_⟩
      simp [Event.SaysEnd, Except.map, hitems]
    · refine ⟨hstands.append rfl rfl, ih.1.call ih.2 hasked rfl ?_⟩
      simp [Event.SaysEnd, Except.map, hnil]

/-- Behind an event that says the end there are only events that say so, and no page. -/
theorem Fitting.end_stays (h : Fitting query events) {before after : List Event} {event : Event}
    (heq : events = before ++ event :: after) (htold : event.SaysEnd) :
    ∀ later ∈ after, later.SaysEnd := by
  induction after generalizing before event with
  | nil => exact fun later hlater => by cases hlater
  | cons next rest ih =>
    obtain ⟨hpage, htaken⟩ := htold.brings_nothing
    have hend := ((h before event _ heq).finished hpage).mp htold
    have hpages := @pagesOf_append_of_none before event hpage
    have hend' : Ended query.limit (before ++ [event]) ∧
        Exhausted query.limit (before ++ [event]) := by
      rw [Ended, Exhausted, hpages, kept_congr query.limit hpages, takenOf_append_of_none htaken]
      exact hend
    rw [← List.singleton_append, ← List.append_assoc] at heq
    have hfits := h _ next rest heq
    have hnext : next.SaysEnd := by
      cases hnone : next.page? with
      | none => exact (hfits.finished hnone).mpr hend'
      | some page =>
        obtain ⟨request, rfl⟩ : ∃ request, next = .page request page := by
          cases next <;> simp_all [Event.page?]
        obtain ⟨last, hlast, -⟩ := hend'.1
        have hne : pagesOf (before ++ [event]) ≠ [] := fun hnil => by simp [hnil] at hlast
        exact absurd hend'.1 (hfits.page request page rfl hne).2.1
    intro later hlater
    rcases List.mem_cons.mp hlater with rfl | hlater
    · exact hnext
    · exact ih heq hnext later hlater

/-- The first page is asked for without a key and with the whole limit. -/
theorem Reads.first (h : Reads query events pages) :
    ∃ plan page, query.plan = .ok plan ∧
      events.head? = some (.page (plan.toRequest none query.limit) page) := by
  induction h with
  | run hrun =>
    obtain ⟨-, plan, request, page, hplan, rfl, rfl⟩ := Stands.run hrun
    exact ⟨plan, page, hplan, rfl⟩
  | hasNext _ _ ih | next _ _ ih | advance _ _ ih =>
    obtain ⟨plan, page, hplan, hfirst⟩ := ih
    refine ⟨plan, page, hplan, ?_⟩
    rw [List.append_assoc, List.head?_append, hfirst, Option.some_or]

/-- However the results are read, while every request is answered with a page:
    * The first page is asked for without a key and with the whole limit.
    * What is taken or passed over goes through the items of all pages, up to the limit, in order.
    * A later page is asked for when nothing is at hand and the results have not ended, from the key
      of the page before it on and for what is left of the limit, which is not nothing.
    * When the user is told that there is nothing more, the results have ended and nothing is at
      hand; from then on the user is told so again, and no page is asked for. -/
theorem reads_in_order (h : Reads query events pages) :
    (∃ plan page, query.plan = .ok plan ∧
      events.head? = some (.page (plan.toRequest none query.limit) page)) ∧
    (∃ passed, passed <+: kept query.limit events ∧
      List.Forall₂ Shows (takenOf events) passed) ∧
    (∀ before request page after, events = before ++ .page request page :: after →
      pagesOf before ≠ [] →
        Exhausted query.limit before ∧ ¬ Ended query.limit before ∧
        Continues query before request ∧
        ∀ n, query.limit = some n → (kept query.limit before).length < n.toNat) ∧
    (∀ before event after, events = before ++ event :: after → event.SaysEnd →
      Ended query.limit before ∧ Exhausted query.limit before ∧
        ∀ later ∈ after, later.SaysEnd) := by
  obtain ⟨hstands, hfitting⟩ := h.stands
  refine ⟨h.first, ?_, ?_, ?_⟩
  · obtain ⟨passed, hpassed, hshows⟩ := hstands.atHand
    exact ⟨passed, hpassed ▸ List.prefix_append passed pages.items, hshows⟩
  · intro before request page after heq hne
    obtain ⟨hexhausted, hnot, hcontinues⟩ := (hfitting before _ after heq).page request page rfl hne
    refine ⟨hexhausted, hnot, hcontinues, fun n hn => ?_⟩
    obtain ⟨-, last, -, -, hlast, -⟩ := hcontinues
    by_contra hle
    exact hnot ⟨last, hlast, .inr (.inr ⟨n, hn, Nat.not_lt.mp hle⟩)⟩
  · intro before event after heq htold
    obtain ⟨hended, hexhausted⟩ :=
      ((hfitting before event after heq).finished htold.brings_nothing.1).mp htold
    exact ⟨hended, hexhausted, hfitting.end_stays heq htold⟩

/-! ## A limit over three pages -/

/-- An item. -/
def track (number : String) : AttributeMap := [("no", .number number)]

/-- A page as it is sent. -/
def sentPage (items : List AttributeMap) (lastKey : Option AttributeMap) : Reply :=
  replyWith ({ items, lastKey } : Page)

/-- A scan for three items. -/
def threeTracks : Query := (Query.onTable "T").limitTo 3

/-- The results of the scan. -/
def tracksAtHand (items : List AttributeMap) (lastKey : Option AttributeMap) (fetched : ℕ) :
    Pages :=
  { request := .scan { table := "T", limit := some 3 }, items, lastKey, limit := some 3, fetched }

/-- The first page is empty, the second has two items and the third one more than is left of the
    limit. The second item is passed over. -/
def threeTracksEvents : List Event :=
  [.page (.scan { table := "T", limit := some 3 }) ⟨[], some (track "0")⟩,
    .page (.scan { table := "T", limit := some 3, startKey := some (track "0") })
      ⟨[track "1", track "2"], some (track "2")⟩,
    .next (.ok (track "1")), .advance (.ok ()),
    .page (.scan { table := "T", limit := some 1, startKey := some (track "2") })
      ⟨[track "3", track "4"], some (track "4")⟩,
    .hasNext (.ok true), .next (.ok (track "3")), .hasNext (.ok false),
    .next (.error (.query .noMoreItems))]

theorem reads_threeTracks :
    Reads threeTracks threeTracksEvents (tracksAtHand [] (some (track "4")) 3) := by
  have hfirst : Reads threeTracks (threeTracksEvents.take 1)
      (tracksAtHand [] (some (track "0")) 0) :=
    .run (@Answered.page _ _ _ (sentPage [] (some (track "0"))) _ rfl)
  have hsecond : Reads threeTracks (threeTracksEvents.take 4)
      (tracksAtHand [] (some (track "2")) 2) :=
    .advance (.next hfirst
      (@Answered.page _ _ _ (sentPage [track "1", track "2"] (some (track "2"))) _ rfl)) (.silent _)
  have hthird : Reads threeTracks (threeTracksEvents.take 7)
      (tracksAtHand [] (some (track "4")) 3) :=
    .next (.hasNext hsecond
      (@Answered.page _ _ _ (sentPage [track "3", track "4"] (some (track "4"))) _ rfl)) (.silent _)
  exact .next (.hasNext hthird (.silent _)) (.silent _)

/-- The two items that were handed over are the first and the third of the four that came. -/
theorem reads_in_order_threeTracks :
    Reads threeTracks threeTracksEvents (tracksAtHand [] (some (track "4")) 3) ∧
      ∃ passed, passed <+: [track "1", track "2", track "3"] ∧
        List.Forall₂ Shows [some (track "1"), none, some (track "3")] passed :=
  ⟨reads_threeTracks, (reads_in_order reads_threeTracks).2.1⟩

end TableClient.Pages
