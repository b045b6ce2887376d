import VersionedBucket.Proofs.BucketName.Language
import VersionedBucket.Proofs.Store.Provenance
import VersionedBucket.Proofs.Walk.Conduct
import VersionedBucket.Proofs.Walk.Course

/-! # Walks over the wire

A lister may be far away, so that each of its pages is written and read again before a walk sees it.
The walk cannot tell if all its pages come back unchanged. The pages of a store do when keys are
coded: what is not coded is the name of the bucket, which passes its test, and what the store has
from the generator of ids, version id markers included.
-/

namespace VersionedBucket

open Text

/-! ## Pages and names in a document -/

/-- A page comes back unchanged from a document and from JSON text. -/
structure Page.Durable (p : Page) : Prop where
  normal : p.Normal
  exact : ∀ v ∈ p.versions, v.Exact
  texts : ∀ text ∈ p.plainTexts, IsWritable text

namespace Page

/-- A page sent as a document. -/
def overXml (p : Page) : Except Fault Page := ofXml (bytes p.toXml)

/-- A page sent as JSON text. -/
def overJson (p : Page) : Except Fault Page := ofJson (bytes p.toJson)

theorem Durable.overXml {p : Page} (hp : p.Durable) : p.overXml = .ok p := by
  rw [Page.overXml, ofXml_toXml_of_writable hp.normal hp.texts, written_of_exact hp.exact]

theorem Durable.overJson {p : Page} (hp : p.Durable) : p.overJson = .ok p := by
  rw [Page.overJson, ofJson_toJson_of_normal hp.normal,
    shown_eq_self_iff.mpr fun v hv => (hp.exact v hv).regular]

/-- The place where a page goes on may be written in a document if the rest of the page may. -/
theorem Durable.cursor? {p : Page} (hp : p.Durable) {cursor : Request.Cursor}
    (hcursor : p.cursor? = some cursor) :
    ∀ id ∈ cursor.versionId, IsWritable id := by
  have htexts := hp.texts
  simp only [plainTexts, List.forall_mem_append, List.forall_mem_cons,
    List.forall_mem_flatMap] at htexts
  obtain ⟨⟨⟨-, hnextId⟩, hversions⟩, -⟩ := htexts
  unfold Page.cursor? at hcursor
  split at hcursor
  · cases hcursor
    exact fun id hid => hnextId id (Option.mem_toList.mpr hid)
  · obtain ⟨last, hlast, rfl⟩ := Option.map_eq_some_iff.mp hcursor
    rintro _ ⟨⟩
    exact hversions last (List.mem_of_getLast? hlast) _ (by simp [Version.plainTexts])

end Page

/-- The characters of a name that passes the strict test are small letters, digits,
dots and hyphens. -/
theorem BucketName.isWritable_of_check {name : String} (hcheck : check .strict name = .ok ()) :
    IsWritable name := by
  intro c hc
  obtain ⟨_, hfits, _⟩ := check_eq_ok_iff.mp hcheck
  rcases isInner_strict_iff.mp ((fits_iff.mp hfits).1 c hc) with hsmall | rfl | rfl
  · have hrange := isAlphanumeric_iff_toNat.mp (Or.inr hsmall)
    exact isLegal_of_ascii (by omega) (by omega)
  · decide
  · decide

/-! ## Requests whose pages come back -/

namespace Request

/-- A request for a bucket of a certain name that asks for coded keys and has no version id marker
but one that a document may contain. -/
structure OnWire (name : String) (r : Request) : Prop where
  bucket : r.bucket = name
  coded : r.settings.urlEncoding = true
  marker : ∀ id ∈ r.versionIdMarker, IsWritable id

variable {name : String} {r : Request}

theorem OnWire.resized (hr : r.OnWire name) (size : Option UInt16) :
    (r.resized size).OnWire name := by
  cases size <;> exact ⟨hr.bucket, hr.coded, hr.marker⟩

theorem OnWire.next? (hr : r.OnWire name) {p : Page} (hp : p.Durable) {next : Request}
    (hnext : r.next? p = .ok (some next)) : next.OnWire name := by
  obtain ⟨-, cursor, hcursor, -, rfl⟩ := next?_eq_some_iff.mp hnext
  exact ⟨hr.bucket, hr.coded, hp.cursor? hcursor⟩

variable {drawn : List String} {b : Bucket}

theorem durable_of_mem_items (hdurable : b.All Version.Durable) {w : Version}
    (hw : Item.version w ∈ r.items b) :
    w.Durable := by
  obtain ⟨entry, hentry, -, hitem⟩ := mem_items.mp hw
  obtain ⟨age, hage, rfl⟩ := List.mem_iff_getElem.mp
    ((r.listed_sublist _ _).subset (version_mem_itemsOf.mp hitem).2)
  simp only [Version.flagged, List.getElem_mapIdx]
  exact (hdurable entry hentry _ (List.getElem_mem _)).flag _

/-- Every page of such a request comes back, as long as all versions of the bucket do. -/
theorem OnWire.durable_page (hr : r.OnWire name) (hname : IsWritable name) (hb : b.WellFormed drawn)
    (hdurable : b.All Version.Durable) : (Store.page r b).Durable := by
  have hpage := Store.page_eq_pageOf r hb
  have hshown : ∀ w ∈ Item.versions (Item.taken r.pageSize.toNat (r.items b)),
      w.Durable := fun w hw =>
    durable_of_mem_items hdurable ((Item.taken_isPrefix _ _).subset (Item.mem_versions.mp hw))
  have hversions : ∀ v ∈ (Store.page r b).versions, v.Durable := by
    rw [hpage]
    exact List.forall_mem_map.mpr fun w hw => (hshown w hw).normalize
  have hencoding : (Store.page r b).encoding = some Coding.url := by
    rw [hpage]
    exact if_pos hr.coded
  have hbucket : IsWritable (Store.page r b).bucket :=
    show IsWritable r.bucket from hr.bucket ▸ hname
  have hmarker : ∀ id ∈ (Store.page r b).versionIdMarker.toList, IsWritable id := fun id hid =>
    hr.marker id (mem_of_mem_nonEmpty (Option.mem_toList.mp hid))
  have hnext : ∀ id ∈ (Store.page r b).nextVersionIdMarker.toList, IsWritable id := by
    rw [hpage]
    intro id hid
    obtain ⟨last, hlast, rfl⟩ := Option.mem_map.mp (mem_of_mem_nonEmpty (Option.mem_toList.mp hid))
    -- the marker is that of the last version shown, if there is one
    split at hlast
    · exact (hshown last (List.mem_of_getLast? hlast)).isWritable_versionId
    · cases hlast
  refine ⟨Page.normal_normalize _, fun v hv => (hversions v hv).exact, ?_⟩
  simp only [Page.plainTexts, List.forall_mem_append, List.forall_mem_cons, List.forall_mem_flatMap,
    hencoding]
  exact ⟨⟨⟨⟨hbucket, hmarker⟩, hnext⟩, fun v hv => (hversions v hv).texts⟩, List.forall_mem_nil _⟩

end Request

/-! ## Walks that cannot tell two listers apart -/

namespace Walk

variable {σ : Type} {lister other : Lister σ} {w : Walk} {state : σ}

/-- A call asks a lister one thing at most. -/
theorem next_eq_of_agree {size : Option UInt16}
    (hagree : ∀ r ∈ w.due? size, r.send other state = r.send lister state) :
    w.next other size state = w.next lister size state := by
  obtain ⟨request, pending, pagesFetched⟩ := w
  cases pending with
  | some cause => rfl
  | none =>
      cases request with
      | none => rfl
      | some request =>
          have hresized : { request with maxKeys := size <|> request.maxKeys } =
              request.resized size := by
            cases size <;> rfl
          cases hlimit : Walk.isExhausted ⟨some request, none, pagesFetched⟩ request with
          | true => simp [next, hlimit]
          | false =>
              have hsend :=
                hagree (request.resized size)
                  (due?_eq_some_iff.mpr ⟨request, rfl, rfl, hlimit, rfl⟩)
              simp only [next, hlimit, hresized, hsend]

section Agreement

variable (invariant : Walk → σ → Prop)
  (hagree : ∀ w state size, invariant w state → ∀ r ∈ w.due? size,
    r.send other state = r.send lister state)
  (hnext : ∀ w state size, invariant w state →
    invariant (w.next lister size state).walk (w.next lister size state).state)
include hagree hnext

/-- Two listers that agree on what a walk may ask of them, as long as an invariant holds, are the
same to it. -/
theorem calls_eq_of_agree (hw : invariant w state) (sizes : List (Option UInt16)) :
    w.calls other state sizes = w.calls lister state sizes ∧
      w.sends other state sizes = w.sends lister state sizes := by
  induction sizes generalizing w state with
  | nil => exact ⟨rfl, rfl⟩
  | cons size sizes ih =>
      have hturn := next_eq_of_agree (hagree w state size hw)
      obtain ⟨hcalls, hsends⟩ := ih (hnext w state size hw)
      simp only [calls, sends, hturn, hcalls, hsends, and_self]

theorem take_eq_of_agree (hw : invariant w state) (count : Nat) :
    w.take other state count = w.take lister state count := by
  induction count generalizing w state with
  | zero => rfl
  | succ count ih =>
      have hturn := next_eq_of_agree (hagree w state none hw)
      simp only [take, hturn, ih (hnext w state none hw)]

end Agreement

end Walk

/-- A lister whose pages are sent over a wire. -/
def Lister.over {σ : Type} (wire : Page → Except Fault Page) (lister : Lister σ) : Lister σ :=
  fun r state =>
  ((lister r state).1 >>= wire, (lister r state).2)

/-! ## Walks over a store on the wire -/

/-- A walk whose next request, if it has one, is answered with pages that come back. -/
structure Walk.OnWire (name : String) (w : Walk) : Prop where
  coherent : w.Coherent
  request : ∀ r ∈ w.request, r.OnWire name

/-- A store whose pages of a bucket all come back. -/
def Store.Carries (s : Store) (name : String) : Prop :=
  ∀ r : Request, r.OnWire name → ∃ p, s.list r = .ok p ∧ p.Durable

namespace Store

variable {s : Store} {name : String} {r : Request}

theorem Carries.durable_of_send (hs : s.Carries name) (hr : r.OnWire name) {p : Page}
    (hsend : (r.send lister s).1 = .ok p) : p.Durable := by
  obtain ⟨page, hlist, hpage⟩ := hs r hr
  unfold Request.send at hsend
  split at hsend
  · cases hsend
  · simp only [lister, hlist] at hsend
    cases hsend
    exact hpage

/-- A wire that gives back such pages makes no difference to such a request. -/
theorem Carries.send_over (hs : s.Carries name) {wire : Page → Except Fault Page}
    (hwire : ∀ p : Page, p.Durable → wire p = .ok p) (hr : r.OnWire name) :
    r.send (lister.over wire) s = r.send lister s := by
  obtain ⟨page, hlist, hpage⟩ := hs r hr
  unfold Request.send
  split
  · rfl
  · simp only [Lister.over, lister, hlist]
    exact congrArg (·, s) (hwire page hpage)

theorem Carries.next (hs : s.Carries name) {w : Walk} (hw : w.OnWire name) (size : Option UInt16) :
    (w.next lister size s).walk.OnWire name := by
  refine ⟨Walk.coherent_next hw.coherent lister size s, fun next hnext => ?_⟩
  cases hdue : w.due? size with
  | none =>
      rw [(Walk.next_of_due_none hw.coherent hdue lister s).2.1] at hnext
      cases hnext
  | some r =>
      rw [(Walk.next_of_due hdue lister s).2.1] at hnext
      obtain ⟨page, hanswer, hpage⟩ := Walk.request_answered hnext
      obtain ⟨request, hrequest, -, -, rfl⟩ := Walk.due?_eq_some_iff.mp hdue
      have hr := (hw.request request hrequest).resized size
      exact hr.next? (hs.durable_of_send hr hanswer) hpage

theorem Carries.durable_of_mem_results (hs : s.Carries name) {w : Walk} (hw : w.OnWire name)
    {sizes : List (Option UInt16)} {p : Page}
    (hp : some (.ok p) ∈ (w.calls lister s sizes).results) : p.Durable := by
  induction sizes generalizing w with
  | nil => cases hp
  | cons size sizes ih =>
      rw [Walk.calls, Course.next_state] at hp
      rcases List.mem_cons.mp hp with hitem | hlater
      · cases hdue : w.due? size with
        | none =>
            rw [(Walk.next_of_due_none hw.coherent hdue lister s).1] at hitem
            cases hpending : w.pending <;> simp [hpending] at hitem
        | some r =>
            rw [(Walk.next_of_due hdue lister s).1] at hitem
            obtain ⟨request, hrequest, -, -, rfl⟩ := Walk.due?_eq_some_iff.mp hdue
            exact hs.durable_of_send ((hw.request request hrequest).resized size)
              (Option.some.inj hitem).symm
      · exact ih (hs.next hw size) hlater

/-- A store carries a bucket if what it holds came from the generator and the clock, the bucket's
name passes its test, and a document may contain the texts of its owners. -/
theorem History.Issued.carries {history : History} (hissued : history.Issued)
    (hname : BucketName.check .strict name = .ok ()) {b : Bucket}
    (hbucket : history.store.bucket? name = some b)
    (howners : b.All fun v => ∀ o ∈ v.owner, ∀ text ∈ o.texts, IsWritable text) :
    history.store.Carries name := by
  intro r hr
  have hlist : history.store.list r = .ok (page r b) := by rw [list, hr.bucket, hbucket]
  have hb := history.store_wellFormed.bucket hbucket
  have hdurable := hissued.durable hbucket howners
  exact ⟨page r b, hlist, hr.durable_page (BucketName.isWritable_of_check hname) hb hdurable⟩

/-- A walk over a store cannot tell whether its pages are sent over a wire, as documents or as JSON
text. Whatever the keys are, and whatever the request asks for apart from coded keys and no version
id marker, all its pages come back as they were; so the walk shows the same pages, sends the same
requests and ends in the same way. -/
theorem walk_over_wire (history : History) (hissued : history.Issued) {r : Request} {b : Bucket}
    (hname : BucketName.check .strict r.bucket = .ok ())
    (hbucket : history.store.bucket? r.bucket = some b)
    (howners : b.All fun v => ∀ o ∈ v.owner, ∀ text ∈ o.texts, IsWritable text)
    (hcoded : r.settings.urlEncoding = true) (hmarker : r.versionIdMarker = none) :
    (∀ sizes p, some (.ok p) ∈ ((Walk.start r).calls lister history.store sizes).results →
      p.overXml = .ok p ∧ p.overJson = .ok p) ∧
    ∀ wire ∈ [Page.overXml, Page.overJson],
      (∀ sizes, (Walk.start r).calls (lister.over wire) history.store sizes =
          (Walk.start r).calls lister history.store sizes ∧
        (Walk.start r).sends (lister.over wire) history.store sizes =
          (Walk.start r).sends lister history.store sizes) ∧
      ∀ count, (Walk.start r).take (lister.over wire) history.store count =
        (Walk.start r).take lister history.store count := by
  have hcarries := hissued.carries hname hbucket howners
  have hstart : (Walk.start r).OnWire r.bucket := by
    refine ⟨Walk.coherent_start r, ?_⟩
    rintro _ ⟨⟩
    exact ⟨rfl, hcoded, by simp [hmarker]⟩
  refine ⟨fun sizes p hp => ?_, fun wire hmem => ?_⟩
  · have hdurable := hcarries.durable_of_mem_results hstart hp
    exact ⟨hdurable.overXml, hdurable.overJson⟩
  · have hwire : ∀ p : Page, p.Durable → wire p = .ok p := by
      simp only [List.mem_cons, List.not_mem_nil, or_false] at hmem
      rcases hmem with rfl | rfl
      · exact fun p hp => hp.overXml
      · exact fun p hp => hp.overJson
    -- on the way nothing but such requests is sent, and the store stays as it is
    let invariant (w : Walk) (s : Store) : Prop := w.OnWire r.bucket ∧ s = history.store
    have hagree : ∀ w state size, invariant w state → ∀ r ∈ w.due? size,
        r.send (lister.over wire) state = r.send lister state := by
      rintro w _ size ⟨hw, rfl⟩ _ hdue
      obtain ⟨request, hrequest, -, -, rfl⟩ := Walk.due?_eq_some_iff.mp hdue
      exact hcarries.send_over hwire ((hw.request request hrequest).resized size)
    have hnext : ∀ w state size, invariant w state →
        invariant (w.next lister size state).walk (w.next lister size state).state := by
      rintro w _ size ⟨hw, rfl⟩
      exact ⟨hcarries.next hw size, Course.next_state w size _⟩
    exact ⟨Walk.calls_eq_of_agree invariant hagree hnext ⟨hstart, rfl⟩,
      Walk.take_eq_of_agree invariant hagree hnext ⟨hstart, rfl⟩⟩

/-- Ids that repeat a digit, drawn at the start of 1970. -/
def drawOf (digit : Char) : Draw :=
  let id := String.ofList (List.replicate 32 digit)
  ⟨id, id, .epoch⟩

theorem genuine_drawOf {digit : Char} (hdigit : hexDigits.contains digit = true) :
    (drawOf digit).Genuine := by
  have hid : IsSimpleId (String.ofList (List.replicate 32 digit)) := by
    rw [IsSimpleId, String.toList_ofList, List.length_replicate, List.all_replicate,
      if_neg (by decide), hdigit]
    exact ⟨rfl, rfl⟩
  have hclock : Time.Instant.epoch.IsRegular := by decide
  exact ⟨hid, hid, hclock⟩

/-- Keys that are empty or have characters that no document may contain, and an owner
without a name. -/
def History.hostile : History :=
  let owner : Owner := { id := "<&>", displayName := some "" }
  [.makeBucket "photos", .putObject (some owner) "photos" "" 1 (drawOf 'a').stamp,
    .putDeleteMarker none "photos" "" (drawOf 'b').stamp,
    .putObject (some owner) "photos" "\x00 %2F" 2 (drawOf 'c').stamp,
    .putObject none "photos" "\x01\r" 3 (drawOf 'd').stamp,
    .putObject none "photos" "\x01\n" 4 (drawOf 'e').stamp]

theorem walk_over_wire_hostile :
    let r : Request := { bucket := "photos", delimiter := some "\x01", maxKeys := some 1 }
    let direct := (Walk.start r).calls lister History.hostile.store [none, some 2, none]
    direct.results.map (fun item => item.bind fun answer => answer.toOption.map fun p =>
        (p.versions.map (·.key), p.commonPrefixes, p.nextKeyMarker)) =
      [some ([""], [], none), some (["", "\x00 %2F"], [], some "\x00 %2F"),
        some ([], ["\x01"], none)] ∧
    (∀ p, some (.ok p) ∈ direct.results → p.overXml = .ok p ∧ p.overJson = .ok p) ∧
    (Walk.start r).calls (lister.over Page.overXml) History.hostile.store
      [none, some 2, none] = direct ∧
    (Walk.start r).take (lister.over Page.overJson) History.hostile.store 9 =
      (Walk.start r).take lister History.hostile.store 9 := by
  intro r direct
  obtain ⟨b, hbucket⟩ : ∃ b, History.hostile.store.bucket? r.bucket = some b :=
    Option.isSome_iff_exists.mp (by decide)
  obtain rfl : b = (History.hostile.store.bucket? "photos").getD [] := by rw [hbucket]; rfl
  have hissued : History.hostile.Issued := by
    simp only [History.Issued, History.hostile, List.forall_mem_cons, Op.stamp?, Option.mem_def,
      Option.some.injEq, forall_eq', reduceCtorEq, false_imp_iff, implies_true, true_and, and_true,
      List.not_mem_nil]
    have hdrawn {digit : Char} (hdigit : hexDigits.contains digit = true) :
        (drawOf digit).stamp.Issued := ⟨drawOf digit, genuine_drawOf hdigit, rfl⟩
    exact ⟨hdrawn (by decide), hdrawn (by decide), hdrawn (by decide), hdrawn (by decide),
      hdrawn (by decide)⟩
  have howners : ((History.hostile.store.bucket? "photos").getD []).All fun v =>
      ∀ o ∈ v.owner, ∀ text ∈ o.texts, IsWritable text := by
    unfold Bucket.All
    decide
  obtain ⟨hpages, hwires⟩ :=
    walk_over_wire History.hostile hissued (r := r) (by decide) hbucket howners rfl rfl
  exact ⟨by decide, hpages _, ((hwires Page.overXml (by simp)).1 _).1,
    (hwires Page.overJson (by simp)).2 9⟩

end Store

end VersionedBucket
