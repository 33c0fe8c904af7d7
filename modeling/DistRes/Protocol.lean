import Mathlib.Data.Int.Notation
import Mathlib.Data.List.Nodup
import DistRes.Lib.Utf8

/-!
# The messages (`protocol.py`)

JSON values as Python holds them, the tags and codes of the protocol, and the messages that the
server puts on a socket.  How messages become bytes and are framed is in `Channel`.
-/

namespace DistRes

open Lib

/-! ## JSON values -/

/-- A JSON value.  A float is its `repr`, with the integer that it is equal to, if there is one; an
object is its items, with no key twice. -/
inductive Json
  | null
  | bool (b : Bool)
  | int (n : ℤ)
  | float (repr : Text) (int? : Option ℤ)
  | str (s : Text)
  | arr (xs : List Json)
  | obj (fields : List (Text × Json))

/-- `message.get(key)`. -/
def field? (fields : List (Text × Json)) (key : Text) : Option Json :=
  (fields.find? fun e => e.1 = key).map Prod.snd

/-- `message.get(key)`, with `None` where there is no such key. -/
def getField (fields : List (Text × Json)) (key : Text) : Json := (field? fields key).getD .null

/-- `fields[key] = x`: a key that is there keeps its place. -/
def setField (fields : List (Text × Json)) (e : Text × Json) : List (Text × Json) :=
  if fields.any fun f => f.1 = e.1 then fields.map fun f => if f.1 = e.1 then e else f
  else fields ++ [e]

/-- `{**fields, **params}`. -/
def mergeFields (fields params : List (Text × Json)) : List (Text × Json) :=
  params.foldl setField fields

theorem field?_map (fields : List (Text × Json)) (e : Text × Json) {key : Text} (h : e.1 ≠ key) :
    field? (fields.map fun f => if f.1 = e.1 then e else f) key = field? fields key := by
  induction fields with
  | nil => rfl
  | cons f fields ih =>
    rw [List.map_cons]
    by_cases hf : f.1 = e.1
    · have hne : f.1 ≠ key := hf ▸ h
      rw [if_pos hf, field?, field?, List.find?_cons_of_neg (by simpa using h),
        List.find?_cons_of_neg (by simpa using hne)]
      exact ih
    · rw [if_neg hf]
      by_cases hk : f.1 = key
      · rw [field?, field?, List.find?_cons_of_pos (by simpa using hk),
          List.find?_cons_of_pos (by simpa using hk)]
      · rw [field?, field?, List.find?_cons_of_neg (by simpa using hk),
          List.find?_cons_of_neg (by simpa using hk)]
        exact ih

theorem field?_setField (fields : List (Text × Json)) (e : Text × Json) {key : Text}
    (h : e.1 ≠ key) : field? (setField fields e) key = field? fields key := by
  unfold setField
  split
  · exact field?_map fields e h
  · simp [field?, List.find?_append, h]

theorem field?_mergeFields (fields : List (Text × Json)) {params : List (Text × Json)} {key : Text}
    (h : ∀ e ∈ params, e.1 ≠ key) : field? (mergeFields fields params) key = field? fields key := by
  induction params generalizing fields with
  | nil => rfl
  | cons e params ih =>
    rw [mergeFields, List.foldl_cons, ← mergeFields, ih _ fun f hf => h f (List.mem_cons_of_mem _ hf),
      field?_setField _ _ (h e List.mem_cons_self)]

theorem keys_setField (fields : List (Text × Json)) (e : Text × Json) :
    (setField fields e).map Prod.fst = fields.map Prod.fst ∨
      e.1 ∉ fields.map Prod.fst ∧ setField fields e = fields ++ [e] := by
  by_cases hany : fields.any (fun f => f.1 = e.1) = true
  · left
    rw [setField, if_pos hany, List.map_map]
    refine List.map_congr_left fun f _ => ?_
    simp only [Function.comp]
    split
    · rename_i h
      exact h.symm
    · rfl
  · refine .inr ⟨fun hmem => hany ?_, by rw [setField, if_neg hany]⟩
    obtain ⟨f, hf, heq⟩ := List.mem_map.1 hmem
    exact List.any_eq_true.2 ⟨f, hf, by simpa using heq⟩

/-- The dict of some items has no key twice, and its items are among them. -/
theorem mergeFields_items (es : List (Text × Json)) : ((mergeFields [] es).map Prod.fst).Nodup ∧
    ∀ e ∈ mergeFields [] es, e ∈ es := by
  suffices h : ∀ fields : List (Text × Json), (fields.map Prod.fst).Nodup →
      ((mergeFields fields es).map Prod.fst).Nodup ∧
        ∀ e ∈ mergeFields fields es, e ∈ fields ∨ e ∈ es by
    obtain ⟨h1, h2⟩ := h [] List.nodup_nil
    exact ⟨h1, fun e he => (h2 e he).resolve_left List.not_mem_nil⟩
  induction es with
  | nil => exact fun fields h => ⟨h, fun e he => .inl he⟩
  | cons x es ih =>
    intro fields hnd
    have hset : ((setField fields x).map Prod.fst).Nodup := by
      rcases keys_setField fields x with h | ⟨hnew, h⟩
      · rwa [h]
      · rw [h, List.map_append, List.map_singleton]
        rw [← List.concat_eq_append]
        exact List.Nodup.concat hnew hnd
    have hmem : ∀ e ∈ setField fields x, e ∈ fields ∨ e = x := by
      intro e he
      unfold setField at he
      split at he
      · obtain ⟨f, hf, rfl⟩ := List.mem_map.1 he
        split
        · exact .inr rfl
        · exact .inl hf
      · exact (List.mem_append.1 he).imp_right List.mem_singleton.1
    obtain ⟨h1, h2⟩ := ih _ hset
    rw [mergeFields, List.foldl_cons, ← mergeFields]
    refine ⟨h1, fun e he => ?_⟩
    rcases h2 e he with he | he
    · rcases hmem e he with he | rfl
      · exact .inl he
      · exact .inr List.mem_cons_self
    · exact .inr (List.mem_cons_of_mem _ he)

theorem setField_new {fields : List (Text × Json)} {e : Text × Json} (h : e.1 ∉ fields.map Prod.fst) :
    setField fields e = fields ++ [e] := by
  rw [setField, if_neg]
  intro hany
  obtain ⟨f, hf, heq⟩ := List.any_eq_true.1 hany
  exact h (List.mem_map.2 ⟨f, hf, by simpa using heq⟩)

/-- Items with different keys become the dict of these items. -/
theorem mergeFields_of_nodup {fields es : List (Text × Json)}
    (h : ((fields ++ es).map Prod.fst).Nodup) : mergeFields fields es = fields ++ es := by
  induction es generalizing fields with
  | nil => simp [mergeFields]
  | cons e es ih =>
    have hsplit : fields ++ e :: es = fields ++ [e] ++ es := by simp
    have hnew : e.1 ∉ fields.map Prod.fst := by
      rw [List.map_append, List.nodup_append] at h
      exact fun hmem => h.2.2 _ hmem _ (List.mem_map_of_mem List.mem_cons_self) rfl
    rw [hsplit] at h
    rw [mergeFields, List.foldl_cons, ← mergeFields, setField_new hnew, ih h, hsplit]

theorem field?_setField_self (fields : List (Text × Json)) (e : Text × Json) :
    field? (setField fields e) e.1 = some e.2 := by
  unfold setField
  split
  · rename_i hany
    induction fields with
    | nil => cases hany
    | cons f fields ih =>
      rw [List.map_cons]
      by_cases hf : f.1 = e.1
      · rw [if_pos hf, field?, List.find?_cons_of_pos (by simp)]
        rfl
      · rw [if_neg hf, field?, List.find?_cons_of_neg (by simpa using hf)]
        exact ih (by simpa [hf] using hany)
  · rename_i hany
    have hnone : fields.find? (fun f => f.1 = e.1) = none := by
      rw [List.find?_eq_none]
      exact fun f hf h => hany (List.any_eq_true.2 ⟨f, hf, h⟩)
    rw [field?, List.find?_append, hnone, Option.none_or, List.find?_cons_of_pos (by simp)]
    rfl

/-- Of a key that comes twice, the last value counts. -/
theorem field?_mergeFields_reverse (fields es : List (Text × Json)) (key : Text) :
    field? (mergeFields fields es) key = (field? es.reverse key).or (field? fields key) := by
  induction es generalizing fields with
  | nil => rfl
  | cons e es ih =>
    have hone : field? [e] key = if e.1 = key then some e.2 else none := by
      by_cases he : e.1 = key <;> simp [field?, he]
    have hsplit : field? (es.reverse ++ [e]) key = (field? es.reverse key).or (field? [e] key) := by
      simp only [field?, List.find?_append, Option.map_or]
    rw [mergeFields, List.foldl_cons, ← mergeFields, ih, List.reverse_cons, hsplit, Option.or_assoc]
    congr 1
    by_cases he : e.1 = key
    · rw [hone, if_pos he, ← he, field?_setField_self, Option.some_or]
    · rw [hone, if_neg he, field?_setField _ _ he, Option.none_or]

/-! ### The parts of a value -/

mutual

/-- All values that the value consists of are so. -/
def Json.all (p : Json → Bool) : Json → Bool
  | .arr xs => p (.arr xs) && Json.allItems p xs
  | .obj fields => p (.obj fields) && Json.allFields p fields
  | x => p x

def Json.allItems (p : Json → Bool) : List Json → Bool
  | [] => true
  | x :: xs => Json.all p x && Json.allItems p xs

def Json.allFields (p : Json → Bool) : List (Text × Json) → Bool
  | [] => true
  | (_, x) :: fields => Json.all p x && Json.allFields p fields

end

mutual

/-- How deeply the containers of a value are nested. -/
def Json.depth : Json → ℕ
  | .arr xs => Json.depthItems xs + 1
  | .obj fields => Json.depthFields fields + 1
  | _ => 0

def Json.depthItems : List Json → ℕ
  | [] => 0
  | x :: xs => max (Json.depth x) (Json.depthItems xs)

def Json.depthFields : List (Text × Json) → ℕ
  | [] => 0
  | (_, x) :: fields => max (Json.depth x) (Json.depthFields fields)

end

/-- **Induction over a value**, with the parts of a container at once. -/
theorem Json.rec_parts {P : Json → Prop} (arr : ∀ xs, (∀ x ∈ xs, P x) → P (.arr xs))
    (obj : ∀ fields, (∀ e ∈ fields, P e.2) → P (.obj fields)) (null : P .null) (bool : ∀ b, P (.bool b))
    (int : ∀ n, P (.int n)) (float : ∀ r i, P (.float r i)) (str : ∀ s, P (.str s)) : ∀ x, P x
  | .null => null
  | .bool b => bool b
  | .int n => int n
  | .float r i => float r i
  | .str s => str s
  | .arr xs => arr xs (items xs)
  | .obj fields => obj fields (members fields)
where
  items : ∀ xs : List Json, ∀ x ∈ xs, P x
    | [] => nofun
    | x :: xs => fun y hy => (List.mem_cons.1 hy).elim
        (fun h => h ▸ Json.rec_parts arr obj null bool int float str x) (items xs y)
  members : ∀ fields : List (Text × Json), ∀ e ∈ fields, P e.2
    | [] => nofun
    | (_, x) :: fields => fun e he => (List.mem_cons.1 he).elim
        (fun h => h ▸ Json.rec_parts arr obj null bool int float str x) (members fields e)

theorem depthItems_le {xs : List Json} {d : ℕ} : Json.depthItems xs ≤ d ↔ ∀ x ∈ xs, x.depth ≤ d := by
  induction xs with
  | nil => simp [Json.depthItems]
  | cons x xs ih => rw [Json.depthItems, Nat.max_le, ih, List.forall_mem_cons]

theorem depthFields_le {fields : List (Text × Json)} {d : ℕ} :
    Json.depthFields fields ≤ d ↔ ∀ e ∈ fields, e.2.depth ≤ d := by
  induction fields with
  | nil => simp [Json.depthFields]
  | cons e fields ih =>
    obtain ⟨k, x⟩ := e
    rw [Json.depthFields, Nat.max_le, ih, List.forall_mem_cons]

theorem depth_arr {xs : List Json} {d : ℕ} : (Json.arr xs).depth ≤ d + 1 ↔ ∀ x ∈ xs, x.depth ≤ d := by
  rw [Json.depth, Nat.add_le_add_iff_right, depthItems_le]

theorem depth_obj {fields : List (Text × Json)} {d : ℕ} :
    (Json.obj fields).depth ≤ d + 1 ↔ ∀ e ∈ fields, e.2.depth ≤ d := by
  rw [Json.depth, Nat.add_le_add_iff_right, depthFields_le]

/-- The containers of a value are nested no deeper than `d`. -/
def Json.within : ℕ → Json → Bool
  | 0, .arr _ | 0, .obj _ => false
  | d + 1, .arr xs => xs.all (Json.within d)
  | d + 1, .obj fields => fields.all fun e => Json.within d e.2
  | _, _ => true

theorem within_iff {d : ℕ} {x : Json} : x.within d = true ↔ x.depth ≤ d := by
  induction d generalizing x with
  | zero => cases x <;> simp [Json.within, Json.depth]
  | succ d ih =>
    cases x with
    | arr xs => simp only [Json.within, List.all_eq_true, ih, depth_arr]
    | obj fields => simp only [Json.within, List.all_eq_true, ih, depth_obj]
    | null | bool | int | float | str => simp [Json.within, Json.depth]

/-! ### Formats -/

section Format

variable (strRepr : Text → Text)

mutual

/-- Python's `repr`, over a given `repr` of strings. -/
def pyRepr : Json → Text
  | .null => lit "None"
  | .bool true => lit "True"
  | .bool false => lit "False"
  | .int n => lit (toString n)
  | .float r _ => r
  | .str s => strRepr s
  | .arr xs => lit "[" ++ pyReprItems xs ++ lit "]"
  | .obj fields => lit "\x7b" ++ pyReprFields fields ++ lit "\x7d"

def pyReprItems : List Json → Text
  | [] => []
  | [x] => pyRepr x
  | x :: xs => pyRepr x ++ lit ", " ++ pyReprItems xs

def pyReprFields : List (Text × Json) → Text
  | [] => []
  | [(k, x)] => strRepr k ++ lit ": " ++ pyRepr x
  | (k, x) :: fields => strRepr k ++ lit ": " ++ pyRepr x ++ lit ", " ++ pyReprFields fields

end

/-- What a value becomes inside an f-string. -/
def pyFormat : Json → Text
  | .str s => s
  | x => pyRepr strRepr x

@[simp] theorem pyFormat_str (s : Text) : pyFormat strRepr (.str s) = s := rfl

end Format

/-! ## Tags and codes -/

def typeRequest : Text := lit "REQUEST"
def typeResponse : Text := lit "RESPONSE"
def typeEvent : Text := lit "EVENT"

def actionLogin : Text := lit "LOGIN"
def actionRead : Text := lit "READ"
def actionWrite : Text := lit "WRITE"
def actionLogout : Text := lit "LOGOUT"
def actionPing : Text := lit "PING"

def statusOk : Text := lit "OK"
def statusError : Text := lit "ERROR"

def topicResourceUpdate : Text := lit "resource_update"

/-! ## What clients send -/

/-- A REQUEST.  Parameters may overwrite its own fields. -/
def requestFields (id : ℤ) (action : Text) (params : List (Text × Json)) : List (Text × Json) :=
  mergeFields [(lit "type", .str typeRequest), (lit "id", .int id), (lit "action", .str action)] params

theorem requestFields_items (id : ℤ) (action : Text) (params : List (Text × Json)) :
    ((requestFields id action params).map Prod.fst).Nodup ∧ ∀ e ∈ requestFields id action params,
      e ∈ [(lit "type", .str typeRequest), (lit "id", .int id), (lit "action", .str action)] ++ params := by
  have hmerge : requestFields id action params = mergeFields [] ([(lit "type", .str typeRequest),
      (lit "id", .int id), (lit "action", .str action)] ++ params) := by
    rw [mergeFields, List.foldl_append]
    rfl
  rw [hmerge]
  exact mergeFields_items _

def requestMessage (id : ℤ) (action : Text) (params : List (Text × Json)) : Json :=
  .obj (requestFields id action params)

def loginParams (userId username : Text) : List (Text × Json) :=
  [(lit "user_id", .str userId), (lit "username", .str username)]

def writeParams (content : Text) : List (Text × Json) := [(lit "content", .str content)]

/-! ## What the server sends -/

/-- A RESPONSE: the echoed id, the status, and the fields that the action adds. -/
structure Response where
  id : Json
  status : Text
  message : Option Text := none
  version : Option ℕ := none
  content : Option Text := none

/-- The payload of an update event. -/
structure Update where
  version : ℕ
  updatedBy : Option Text
  summary : Json

/-- An EVENT. -/
structure Event where
  topic : Text
  payload : Update

/-- What is put on the socket of a client. -/
inductive ServerMessage
  | response (r : Response)
  | event (e : Event)

def Response.toJson (r : Response) : Json :=
  .obj ([(lit "type", .str typeResponse), (lit "id", r.id), (lit "status", .str r.status)] ++
    (r.message.map fun m => (lit "message", Json.str m)).toList ++
    (r.version.map fun v => (lit "version", Json.int v)).toList ++
    (r.content.map fun c => (lit "content", Json.str c)).toList)

def Update.toJson (p : Update) : Json :=
  .obj [(lit "version", .int p.version),
    (lit "updated_by", (p.updatedBy.map Json.str).getD .null), (lit "summary", p.summary)]

def Event.toJson (e : Event) : Json :=
  .obj [(lit "type", .str typeEvent), (lit "topic", .str e.topic), (lit "payload", e.payload.toJson)]

def ServerMessage.toJson : ServerMessage → Json
  | .response r => r.toJson
  | .event e => e.toJson

end DistRes
