import DistRes.Lib.Markup
import DistRes.Lib.Window
import DistRes.ClientNode
import DistRes.ReadBack

/-!
# The update feed of the dashboard (`DASHBOARD_HTML`)

The script of the page gets the notifications of the node as JSON and writes them into the page as markup,
each text through `escapeHtml`, and the browser reads the markup.  How deep `json.dumps` goes, how a number
is written as a string, and which character references the browser knows, are parameters.

* `reads_note` — what the browser makes of one notification, whatever it says;
* `feed_shows_events` — in every run of a node, the feed is the last 20 EVENTs, the newest first.
-/

namespace DistRes

open Lib

/-! ## The script -/

/-- No number in the value is NaN or infinite: `json.dumps` writes these, and they are no JSON. -/
def Json.finite : Json → Bool :=
  Json.all fun
    | .float r _ => r ∉ [lit "nan", lit "inf", lit "-inf"]
    | _ => true

/-- `r.json()` gives the notification: `jsonify` has got to the bottom of it, where it stands in the
answer, and has written JSON. -/
def Notification.parses (levels : ℕ) (n : Notification) : Bool :=
  n.summary.finite && n.summary.depth + 3 ≤ levels

section Script

variable (levels : ℕ) (number : Json → Text)

mutual

/-- `String(value)`, for what `r.json()` gives; `none` where it throws: a `toString` that comes with an
object is no function. -/
def jsString : Json → Option Text
  | .null => some (lit "null")
  | .bool b => some (if b then lit "true" else lit "false")
  | .int n => some (number (.int n))
  | .float r i => some (number (.float r i))
  | .str s => some s
  | .arr xs => (jsElements xs).map fun ss => (lit ",").intercalate ss
  | .obj fields => if fields.any fun e => e.1 = lit "toString" then none else some (lit "[object Object]")

/-- The elements of an array, as `join` writes them. -/
def jsElements : List Json → Option (List Text)
  | [] => some []
  | .null :: xs => (jsElements xs).map ([] :: ·)
  | x :: xs =>
    match jsString x, jsElements xs with
    | some s, some ss => some (s :: ss)
    | _, _ => none

end

/-- `String(value ?? '')`. -/
def jsShown : Json → Option Text
  | .null => some []
  | x => jsString number x

/-- The references of `escapeHtml`, without the ampersands. -/
def htmlEntity (c : CodePoint) : Option Text :=
  if c = ampersand then some (lit "amp;")
  else if c = lessThan then some (lit "lt;")
  else if c = greaterThan then some (lit "gt;")
  else if c = apostrophe then some (lit "#39;")
  else if c = quotationMark then some (lit "quot;")
  else none

/-- `escapeHtml`. -/
def escapeHtml (x : Json) : Option Text := (jsShown number x).map (escape htmlEntity)

/-- The texts that a notification is shown by. -/
def Notification.shown (n : Notification) : Option (Text × Text × Text) :=
  match jsShown number (.int n.version), jsShown number ((n.updatedBy.map .str).getD .null),
    jsShown number n.summary with
  | some version, some updatedBy, some summary => some (version, updatedBy, summary)
  | _, _, _ => none

/-- The template of a notification, around three escaped texts. -/
def noteTemplate (version updatedBy summary : Text) : Text :=
  lit "<div class=\"note\"><div class=\"meta\">v" ++ version ++ lit " &bull; by " ++ updatedBy ++
    lit "</div>" ++ lit "<div class=\"body\">" ++ summary ++
    lit "<br><span class=\"muted\">Notification only - press Read Resource to fetch the updated file." ++
    lit "</span></div></div>"

/-- The markup of a notification. -/
def noteHtml (n : Notification) : Option Text :=
  match escapeHtml number (.int n.version), escapeHtml number ((n.updatedBy.map .str).getD .null),
    escapeHtml number n.summary with
  | some version, some updatedBy, some summary => some (noteTemplate version updatedBy summary)
  | _, _, _ => none

/-- What `refresh` puts into the feed; `none` where it throws and leaves the feed as it is. -/
def feedHtml (notifications : List Notification) : Option Text :=
  if !notifications.all (Notification.parses levels) then none
  else if notifications = [] then
    some (lit "<p class=\"muted\">No updates yet. Writes from any node appear here as notifications.</p>")
  else (notifications.reverse.mapM (noteHtml number)).map List.flatten

end Script

/-! ## What the browser makes of it -/

/-- What the page relies on of the browser's character references. -/
structure HtmlReferences (ref : References) : Prop where
  amp : ref.Knows (lit "amp;") [ampersand]
  lt : ref.Knows (lit "lt;") [lessThan]
  gt : ref.Knows (lit "gt;") [greaterThan]
  apos : ref.Knows (lit "#39;") [apostrophe]
  quot : ref.Knows (lit "quot;") [quotationMark]
  bull : ref.Knows (lit "bull;") (lit "•")

/-- The tokens of a notification that is shown by these texts. -/
def noteTokens (version updatedBy summary : Text) : List Token :=
  [Token.tag (lit "div class=\"note\""), Token.tag (lit "div class=\"meta\"")] ++ chars (lit "v") ++
    (chars version ++ (chars (lit " • by ") ++ (chars updatedBy ++
      ([Token.tag (lit "/div"), Token.tag (lit "div class=\"body\"")] ++ (chars summary ++
        ([Token.tag (lit "br"), Token.tag (lit "span class=\"muted\"")] ++
          chars (lit "Notification only - press Read Resource to fetch the updated file.") ++
          [Token.tag (lit "/span"), Token.tag (lit "/div"), Token.tag (lit "/div")]))))))

section Reading

variable {levels : ℕ} {number : Json → Text} {ref : References}

theorem escapes_htmlEntity (hR : HtmlReferences ref) : Escapes ref htmlEntity where
  lessThan := by decide
  ampersand := by decide
  nul := by
    intro c hc
    have hnot : ∀ d : CodePoint, isNul d = false → c ≠ d := by
      rintro d hd rfl
      cases hc.symm.trans hd
    rw [htmlEntity, if_neg (hnot _ rfl), if_neg (hnot _ rfl), if_neg (hnot _ rfl), if_neg (hnot _ rfl),
      if_neg (hnot _ rfl)]
  knows := by
    intro c name hc
    unfold htmlEntity at hc
    split_ifs at hc with h1 h2 h3 h4 h5
    · cases hc
      exact h1 ▸ hR.amp
    · cases hc
      exact h2 ▸ hR.lt
    · cases hc
      exact h3 ▸ hR.gt
    · cases hc
      exact h4 ▸ hR.apos
    · cases hc
      exact h5 ▸ hR.quot

/-- A tag of the template. -/
theorem reads_literal_tag {s t : Text} (hs : s = lessThan :: t ++ [greaterThan] := by decide)
    (hopen : opensTag t = true := by decide) (hstays : staysInTag none t = true := by decide) :
    Reads ref s [.tag t] := hs ▸ reads_tag hopen hstays

theorem reads_noteOpen : Reads ref (lit "<div class=\"note\"><div class=\"meta\">v")
    ([Token.tag (lit "div class=\"note\""), Token.tag (lit "div class=\"meta\"")] ++ chars (lit "v")) := by
  have hsplit : lit "<div class=\"note\"><div class=\"meta\">v" =
      lit "<div class=\"note\">" ++ lit "<div class=\"meta\">" ++ lit "v" := by decide
  rw [hsplit]
  exact .append (.append reads_literal_tag reads_literal_tag) (reads_text (by decide))

theorem reads_noteBy (hR : HtmlReferences ref) :
    Reads ref (lit " &bull; by ") (chars (lit " • by ")) := by
  have hsplit : lit " &bull; by " = lit " " ++ (ampersand :: lit "bull;") ++ lit " by " := by decide
  rw [hsplit]
  exact .append (.append (reads_text (by decide)) (reads_reference hR.bull)) (reads_text (by decide))

theorem reads_noteBody : Reads ref (lit "</div>" ++ lit "<div class=\"body\">")
    [Token.tag (lit "/div"), Token.tag (lit "div class=\"body\"")] :=
  .append reads_literal_tag reads_literal_tag

theorem reads_noteClose :
    Reads ref (lit "<br><span class=\"muted\">Notification only - press Read Resource to fetch the updated file." ++
        lit "</span></div></div>")
      ([Token.tag (lit "br"), Token.tag (lit "span class=\"muted\"")] ++
        chars (lit "Notification only - press Read Resource to fetch the updated file.") ++
        [Token.tag (lit "/span"), Token.tag (lit "/div"), Token.tag (lit "/div")]) := by
  have hopen : lit "<br><span class=\"muted\">Notification only - press Read Resource to fetch the updated file." =
      lit "<br>" ++ lit "<span class=\"muted\">" ++
        lit "Notification only - press Read Resource to fetch the updated file." := by decide
  have hclose : lit "</span></div></div>" = lit "</span>" ++ (lit "</div>" ++ lit "</div>") := by decide
  rw [hopen, hclose]
  exact .append (.append (.append reads_literal_tag reads_literal_tag) (reads_text (by decide)))
    (.append reads_literal_tag (.append reads_literal_tag reads_literal_tag))

/-! ### Line ends -/

/-- The template has no carriage returns, and goes on behind a text with no line feed. -/
theorem universalNewlines_template {t : Text} (h : 13 ∉ t) (s : Text) :
    universalNewlines (t ++ s) = t ++ universalNewlines s := by
  rw [universalNewlines_append (.inl fun hlast => h (List.mem_of_getLast? hlast)),
    universalNewlines_of_no_cr t h]

theorem cr_notMem_escapeOne {c : CodePoint} (hc : c ≠ 13) : 13 ∉ escapeOne htmlEntity c := by
  unfold escapeOne
  split
  · rename_i name hname
    unfold htmlEntity at hname
    split_ifs at hname <;> cases hname <;> decide
  · exact fun h => hc (List.mem_singleton.1 h).symm

/-- An escaped text begins with a line feed only if the text does. -/
theorem head?_escape_ne {c : CodePoint} (hc : c ≠ 10) (s : Text) :
    (escape htmlEntity (c :: s)).head? ≠ some 10 := by
  rw [escape_cons]
  unfold escapeOne
  split
  · exact fun h => absurd (Option.some.inj h) (by decide)
  · exact fun h => hc (Option.some.inj h)

theorem universalNewlines_escape (s : Text) :
    universalNewlines (escape htmlEntity s) = escape htmlEntity (universalNewlines s) := by
  have hcr : escapeOne htmlEntity 13 = [13] := rfl
  have hlf : escapeOne htmlEntity 10 = [10] := rfl
  fun_induction universalNewlines s with
  | case1 => rfl
  | case2 => rfl
  | case3 r ih =>
    rw [escape_cons, escape_cons, hcr, hlf, escape_cons, hlf, ← ih]
    exact universalNewlines_crlf _
  | case4 d r hd ih =>
    rw [escape_cons, hcr, escape_cons htmlEntity 10, hlf, ← ih]
    exact universalNewlines_cr (head?_escape_ne hd r)
  | case5 c s hc ih => rw [escape_cons, escape_cons, universalNewlines_template (cr_notMem_escapeOne hc), ih]

/-- An escaped text, with a piece of the template behind it. -/
theorem universalNewlines_between {t : Text} (h : t.head? ≠ some 10) (s : Text) :
    universalNewlines (escape htmlEntity s ++ t) =
      escape htmlEntity (universalNewlines s) ++ universalNewlines t := by
  rw [universalNewlines_append (.inr h), universalNewlines_escape]

theorem head?_append_ne {t : Text} {c : CodePoint} (hc : c ≠ 10) (ht : t.head? = some c) (rest : Text) :
    (t ++ rest).head? ≠ some 10 := by
  rw [List.head?_append, ht]
  exact fun h => hc (Option.some.inj h)

theorem noteTemplate_eq (version updatedBy summary : Text) : noteTemplate version updatedBy summary =
    lit "<div class=\"note\"><div class=\"meta\">v" ++ (version ++ (lit " &bull; by " ++ (updatedBy ++
      ((lit "</div>" ++ lit "<div class=\"body\">") ++ (summary ++
        (lit "<br><span class=\"muted\">Notification only - press Read Resource to fetch the updated file." ++
          lit "</span></div></div>")))))) := by
  simp only [noteTemplate, List.append_assoc]

theorem head?_noteTemplate (version updatedBy summary : Text) :
    (noteTemplate version updatedBy summary).head? ≠ some 10 := by
  have hopen : (lit "<div class=\"note\"><div class=\"meta\">v").head? = some lessThan := rfl
  rw [noteTemplate_eq]
  exact head?_append_ne (by decide) hopen _

/-- The line ends are those of the texts. -/
theorem universalNewlines_noteTemplate (version updatedBy summary : Text) :
    universalNewlines (noteTemplate (escape htmlEntity version) (escape htmlEntity updatedBy)
      (escape htmlEntity summary)) =
    noteTemplate (escape htmlEntity (universalNewlines version))
      (escape htmlEntity (universalNewlines updatedBy)) (escape htmlEntity (universalNewlines summary)) := by
  rw [noteTemplate_eq, noteTemplate_eq,
    universalNewlines_template (t := lit "<div class=\"note\"><div class=\"meta\">v") (by decide),
    universalNewlines_between (head?_append_ne (t := lit " &bull; by ") (c := 32) (by decide) rfl _),
    universalNewlines_template (t := lit " &bull; by ") (by decide),
    universalNewlines_between (head?_append_ne (t := lit "</div>" ++ lit "<div class=\"body\">")
      (c := lessThan) (by decide) rfl _),
    universalNewlines_template (t := lit "</div>" ++ lit "<div class=\"body\">") (by decide),
    universalNewlines_between (head?_append_ne (c := lessThan) (by decide) rfl _),
    universalNewlines_of_no_cr (_ ++ _) (by decide)]

theorem reads_noteTemplate (hR : HtmlReferences ref) (version updatedBy summary : Text) :
    Reads ref (noteTemplate (escape htmlEntity version) (escape htmlEntity updatedBy)
      (escape htmlEntity summary)) (noteTokens (dropNul version) (dropNul updatedBy) (dropNul summary)) := by
  have hesc := escapes_htmlEntity hR
  rw [noteTemplate_eq]
  exact reads_noteOpen.append ((reads_escape hesc _).append ((reads_noteBy hR).append
    ((reads_escape hesc _).append (reads_noteBody.append ((reads_escape hesc _).append reads_noteClose)))))

/-- A text as the page shows it: with its line ends normalised, and without U+0000. -/
def onPage (s : Text) : Text := dropNul (universalNewlines s)

theorem onPage_eq_self {s : Text} (hcr : 13 ∉ s) (hnul : dropNul s = s) : onPage s = s := by
  rw [onPage, universalNewlines_of_no_cr s hcr, hnul]

/-- The tokens of a notification. -/
def Notification.tokens (number : Json → Text) (n : Notification) : List Token :=
  match n.shown number with
  | some (version, updatedBy, summary) => noteTokens (onPage version) (onPage updatedBy) (onPage summary)
  | none => []

/-- **What the browser makes of a notification.**  The tags are those of the template, and between them
stand the texts that the notification is shown by, character by character, line ends and U+0000 apart. -/
theorem reads_note (hR : HtmlReferences ref) {n : Notification} {html : Text}
    (hn : noteHtml number n = some html) :
    html.head? ≠ some 10 ∧ Reads ref (universalNewlines html) (n.tokens number) := by
  unfold noteHtml escapeHtml at hn
  split at hn
  · rename_i hv hb hm
    obtain ⟨v, hv', rfl⟩ := Option.map_eq_some_iff.1 hv
    obtain ⟨b, hb', rfl⟩ := Option.map_eq_some_iff.1 hb
    obtain ⟨m, hm', rfl⟩ := Option.map_eq_some_iff.1 hm
    cases hn
    refine ⟨head?_noteTemplate _ _ _, ?_⟩
    have hshown : n.shown number = some (v, b, m) := by
      rw [Notification.shown, hv', hb', hm']
    rw [universalNewlines_noteTemplate, Notification.tokens, hshown]
    exact reads_noteTemplate hR _ _ _
  · cases hn

theorem noteHtml_eq_none {n : Notification} : noteHtml number n = none ↔ n.shown number = none := by
  unfold noteHtml escapeHtml Notification.shown
  cases jsShown number (.int n.version) <;> cases jsShown number ((n.updatedBy.map .str).getD .null) <;>
    cases jsShown number n.summary <;> simp

/-- The notifications one behind the other. -/
theorem reads_notes (hR : HtmlReferences ref) {ns : List Notification} {htmls : List Text}
    (h : ns.mapM (noteHtml number) = some htmls) :
    Reads ref (universalNewlines htmls.flatten) (ns.flatMap fun n => n.tokens number) ∧
      htmls.flatten.head? ≠ some 10 := by
  induction ns generalizing htmls with
  | nil =>
    cases h
    exact ⟨.nil, nofun⟩
  | cons n ns ih =>
    rw [List.mapM_cons] at h
    obtain ⟨html, hn, h⟩ := Option.bind_eq_some_iff.1 h
    obtain ⟨htmls, hns, h⟩ := Option.bind_eq_some_iff.1 h
    cases h
    obtain ⟨hhead, hreads⟩ := reads_note hR hn
    obtain ⟨hrest, hheads⟩ := ih hns
    rw [List.flatten_cons, universalNewlines_append (.inr hheads), List.flatMap_cons]
    refine ⟨hreads.append hrest, ?_⟩
    cases html with
    | nil => exact hheads
    | cons c html => exact hhead

/-- The text of a feed without notifications. -/
def emptyFeedTokens : List Token :=
  [Token.tag (lit "p class=\"muted\"")] ++
    chars (lit "No updates yet. Writes from any node appear here as notifications.") ++ [Token.tag (lit "/p")]

/-- **What the browser makes of the feed.** -/
theorem reads_feed (hR : HtmlReferences ref) {ns : List Notification} {html : Text}
    (h : feedHtml levels number ns = some html) :
    Reads ref (universalNewlines html)
      (if ns = [] then emptyFeedTokens else ns.reverse.flatMap fun n => n.tokens number) := by
  unfold feedHtml at h
  split_ifs at h ⊢ with hns
  · have hsplit : lit "<p class=\"muted\">No updates yet. Writes from any node appear here as notifications.</p>" =
        lit "<p class=\"muted\">" ++
          lit "No updates yet. Writes from any node appear here as notifications." ++ lit "</p>" := by decide
    cases h
    rw [universalNewlines_of_no_cr _ (by decide), hsplit]
    exact .append (.append reads_literal_tag (reads_text (by decide))) reads_literal_tag
  · obtain ⟨htmls, hnotes, rfl⟩ := Option.map_eq_some_iff.1 h
    exact (reads_notes hR hnotes).1

theorem mapM_noteHtml_eq_none {ns : List Notification} :
    ns.mapM (noteHtml number) = none ↔ ∃ n ∈ ns, n.shown number = none := by
  induction ns with
  | nil => simp
  | cons n ns ih =>
    simp only [List.mem_cons, exists_eq_or_imp]
    rw [List.mapM_cons, ← noteHtml_eq_none, ← ih]
    cases noteHtml number n <;> cases ns.mapM (noteHtml number) <;> simp

theorem feedHtml_eq_none {ns : List Notification} : feedHtml levels number ns = none ↔
    ∃ n ∈ ns, n.parses levels = false ∨ n.shown number = none := by
  unfold feedHtml
  split_ifs with hparses hns
  · simp only [Bool.not_eq_true', List.all_eq_false] at hparses
    obtain ⟨n, hn, hparses⟩ := hparses
    exact iff_of_true rfl ⟨n, hn, .inl (eq_false_of_ne_true hparses)⟩
  · simp [hns]
  · rw [Option.map_eq_none_iff, mapM_noteHtml_eq_none]
    have hall : ∀ n ∈ ns, n.parses levels = true := by simpa using hparses
    simp only [List.mem_reverse]
    refine exists_congr fun n => and_congr_right fun hn => (or_iff_right ?_).symm
    simp [hall n hn]

end Reading

/-! ## Every run -/

section Runs

variable {U : Type} [DecidableEq U] {levels : ℕ} {number : Json → Text} {ref : References}

/-- What an EVENT leaves in the feed. -/
def Event.notification (e : Event) : Notification :=
  ⟨e.payload.version, e.payload.updatedBy, e.payload.summary⟩

/-- A node, with the EVENTs that its callback has been called with. -/
def feedMachine (U : Type) [DecidableEq U] : Machine (NodeState U × List Event) (NodeAct U) :=
  (nodeMachine U).withHistory [] fun events _ a _ =>
    match a with
    | .event e => events ++ [e]
    | _ => events

/-- A request of the browser leaves the feed as it is. -/
theorem notifications_update (n : Node) (resp : Reply) (call : ApiCall) :
    (call.update n resp).notifications = n.notifications := by
  cases call with
  | logout => rfl
  | login u name =>
    simp only [ApiCall.update, Node.apiLogin]
    split <;> rfl
  | read =>
    simp only [ApiCall.update, Node.apiRead]
    split <;> rfl
  | write x =>
    simp only [ApiCall.update, Node.apiWrite]
    split <;> rfl

theorem notifications_onEvent (n : Node) (e : Event) :
    (n.onEvent e).notifications = (n.notifications ++ [e.notification]).rtake 20 := by
  simp only [Node.onEvent]
  split <;> rfl

/-- **The feed holds the last 20 EVENTs.** -/
theorem notifications_eq {s : NodeState U} {events : List Event}
    (hr : (feedMachine U).Reachable (s, events)) :
    s.node.notifications = (events.map Event.notification).rtake 20 := by
  refine Machine.Reachable.invariant hr
    (fun p => p.1.node.notifications = (p.2.map Event.notification).rtake 20) ?_ ?_
  · rintro ⟨s, events⟩ ⟨hs, he⟩
    have hs : s = {} := hs
    have he : events = [] := he
    subst hs he
    rfl
  · rintro ⟨s, events⟩ a ⟨s', events'⟩ - ih hs
    obtain ⟨hs, he⟩ := Machine.withHistory_step.1 hs
    replace hs : nodeStep s a = some s' := hs
    replace ih : s.node.notifications = (events.map Event.notification).rtake 20 := ih
    simp only at he ⊢
    unfold nodeStep at hs
    cases a with
    | event e =>
      cases hs
      rw [he, List.map_append, List.map_cons, List.map_nil, notifications_onEvent, ih, rtake_append_rtake]
    | state x =>
      cases hs
      rw [he]
      exact ih
    | call t call | «return» t resp =>
      rw [he]
      simp only at hs
      split at hs <;> cases hs
      exact ih
    | update t =>
      rw [he]
      simp only at hs
      split at hs <;> cases hs
      rw [notifications_update]
      exact ih

/-- **The feed shows the last 20 EVENTs, the newest first.**  Whatever the clients write, the browser
finds no other tags than the template's, and between them the texts of the EVENTs, character by character,
line ends and U+0000 apart; unless one of them has a number that is no JSON, is nested too deeply, or shows
an object that comes with a `toString`, and then the feed is left as it was. -/
theorem feed_shows_events (hR : HtmlReferences ref) {s : NodeState U} {events : List Event}
    (hr : (feedMachine U).Reachable (s, events)) :
    (∀ html, feedHtml levels number s.node.notifications = some html →
      tokens ref (.text 0) (universalNewlines html) =
        if events = [] then emptyFeedTokens
        else (events.rtake 20).reverse.flatMap fun e => e.notification.tokens number) ∧
    (feedHtml levels number s.node.notifications = none ↔
      ∃ e ∈ events.rtake 20, e.notification.parses levels = false ∨ e.notification.shown number = none) := by
  have hmap : s.node.notifications = (events.rtake 20).map Event.notification := by
    rw [notifications_eq hr, List.rtake, List.rtake, List.map_drop, List.length_map]
  constructor
  · intro html hhtml
    have hempty : s.node.notifications = [] ↔ events = [] := by
      rw [hmap, List.map_eq_nil_iff, List.rtake, List.drop_eq_nil_iff, ← List.length_eq_zero_iff]
      omega
    rw [(reads_feed hR hhtml).tokens]
    simp only [hempty]
    split_ifs
    · rfl
    · rw [hmap, ← List.map_reverse, List.flatMap_map]
  · rw [feedHtml_eq_none, hmap]
    simp only [List.mem_map, exists_exists_and_eq_and]

/-! ### A run -/

/-- The character references of the page. -/
def pageReferences : References := fun s =>
  ([(lit "amp;", [ampersand]), (lit "lt;", [lessThan]), (lit "gt;", [greaterThan]), (lit "#39;", [apostrophe]),
    (lit "quot;", [quotationMark]), (lit "bull;", lit "•")].find? fun e => e.1.isPrefixOf s).map
      fun e => (e.2, e.1.length)

theorem pageReferences_known : HtmlReferences pageReferences :=
  ⟨fun _ => rfl, fun _ => rfl, fun _ => rfl, fun _ => rfl, fun _ => rfl, fun _ => rfl⟩

/-- An update whose text is a tag. -/
def markupEvent : Event :=
  ⟨topicResourceUpdate, ⟨1, some (lit "ENG001"), .str (lit "<b onclick='f()'>")⟩⟩

theorem markupEvent_shown :
    ∃ s html, (feedMachine (Fin 1)).run ({}, []) [.event markupEvent] = some (s, [markupEvent]) ∧
      feedHtml 980 (fun _ => lit "1") s.node.notifications = some html ∧
      tokens pageReferences (.text 0) (universalNewlines html) =
        noteTokens (lit "1") (lit "ENG001") (lit "<b onclick='f()'>") := by
  have hrun : (feedMachine (Fin 1)).run ({}, []) [.event markupEvent] =
      some ({ node := ({} : Node).onEvent markupEvent }, [markupEvent]) := rfl
  have hr : (feedMachine (Fin 1)).Reachable ({ node := ({} : Node).onEvent markupEvent }, [markupEvent]) :=
    Machine.Reachable.run (s := (({} : NodeState (Fin 1)), ([] : List Event))) (.init ⟨rfl, rfl⟩) hrun
  have hsome :
      (feedHtml 980 (fun _ => lit "1") (({} : Node).onEvent markupEvent).notifications).isSome = true := by
    decide +kernel
  obtain ⟨html, hhtml⟩ := Option.isSome_iff_exists.1 hsome
  have hshown : markupEvent.notification.shown (fun _ => lit "1") =
      some (lit "1", lit "ENG001", lit "<b onclick='f()'>") := rfl
  refine ⟨_, html, hrun, hhtml, ?_⟩
  rw [(feed_shows_events pageReferences_known hr).1 html hhtml, if_neg (List.cons_ne_nil _ _),
    show ([markupEvent].rtake 20).reverse = [markupEvent] from rfl, List.flatMap_singleton,
    Notification.tokens, hshown]
  simp only
  rw [onPage_eq_self (by decide) rfl, onPage_eq_self (by decide) rfl, onPage_eq_self (by decide) rfl]

end Runs

end DistRes
