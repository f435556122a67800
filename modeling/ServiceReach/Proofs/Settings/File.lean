import ServiceReach.Command.Settings
import ServiceReach.Proofs.Json.RoundTrip
import ServiceReach.Proofs.Workspace.Files
import ServiceReach.Settings.File

/-
  Configuration files that are written can be read. A sheet is written as an object with one member
  for each setting; its keys are those of the settings, so each value comes back to its setting and
  nothing is said about the keys (`parse_render`). The values of settings have no numbers in them,
  and different settings have different values (`toSheet_injective`).
-/

namespace ServiceReach

namespace Setting

theorem ofKey?_key (s : Setting) : ofKey? s.key = some s := by
  cases s <;> decide

theorem mem_all (s : Setting) : s ∈ all := by
  cases s <;> decide

end Setting

/-! ## Sheets -/

namespace Sheet

/-- The sheet with the value of a member, if its key is that of a setting. -/
def setKey (sheet : Sheet) (member : String × Json) : Sheet :=
  ((Setting.ofKey? member.1).map fun s => sheet.set s member.2).getD sheet

theorem ofMembers_eq_foldl (members : List (String × Json)) :
    ofMembers members = members.foldl setKey initial := by
  unfold ofMembers
  congr 1
  funext sheet member
  unfold setKey
  dsimp only
  cases Setting.ofKey? member.1 <;> rfl

/-- Each setting that is among the members gets its value from there. -/
theorem value_foldl_setKey (settings : List Setting) (value : Setting → Json) (sheet : Sheet)
    (s : Setting) :
    ((settings.map fun t => (t.key, value t)).foldl setKey sheet).value s =
      if s ∈ settings then value s else sheet.value s := by
  induction settings generalizing sheet with
  | nil => rfl
  | cons t settings ih =>
    have hset : setKey sheet (t.key, value t) = sheet.set t (value t) := by
      rw [setKey, Setting.ofKey?_key]
      rfl
    rw [List.map_cons, List.foldl_cons, hset, ih]
    by_cases hs : s ∈ settings
    · rw [if_pos hs, if_pos (List.mem_cons_of_mem t hs)]
    · rw [if_neg hs, set]
      by_cases hst : s = t
      · simp [hst]
      · simp [hst, hs]

theorem ofMembers_toJson (sheet : Sheet) :
    ofMembers (Setting.all.map fun s => (s.key, sheet.value s)) = sheet := by
  rw [ofMembers_eq_foldl]
  have hvalue : ((Setting.all.map fun s => (s.key, sheet.value s)).foldl setKey initial).value =
      sheet.value := by
    funext s
    rw [value_foldl_setKey, if_pos s.mem_all]
  exact congrArg Sheet.mk hvalue

theorem warnings_toJson (sheet : Sheet) :
    warnings (Setting.all.map fun s => (s.key, sheet.value s)) = [] := by
  unfold warnings
  rw [List.map_eq_nil_iff, List.filter_eq_nil_iff]
  intro member hmember
  obtain ⟨s, _, rfl⟩ := List.mem_map.mp hmember
  simp [Setting.ofKey?_key]

/-- A sheet is read back from its file, and nothing is said. -/
theorem parse_render {sheet : Sheet} (h : ∀ s, (sheet.value s).Plain) (path : String) :
    parse path sheet.render = .ok (sheet, []) := by
  have hkeys : ((Setting.all.map fun s => (s.key, sheet.value s)).map Prod.fst).Nodup := by
    rw [List.map_map]
    exact (by decide : (Setting.all.map Setting.key).Nodup)
  have hplain : sheet.toJson.Plain := .obj hkeys fun member hmember => by
    obtain ⟨s, _, rfl⟩ := List.mem_map.mp hmember
    exact h s
  unfold parse render
  rw [hplain.parse_pretty]
  unfold toJson
  dsimp only
  rw [ofMembers_toJson, warnings_toJson]

end Sheet

/-! ## Settings -/

namespace Json

theorem plain_ofStrings (items : List String) : (ofStrings items).Plain :=
  .arr fun v hv => by
    obtain ⟨s, _, rfl⟩ := List.mem_map.mp hv
    exact .str s

theorem plain_ofOption (s : Option String) : (ofOption s).Plain := by
  cases s with
  | none => exact .null
  | some s => exact .str s

theorem ofStrings_inj {items items' : List String} (h : ofStrings items = ofStrings items') :
    items = items' :=
  (List.map_inj_right fun _ _ hstr => Json.str.inj hstr).mp (Json.arr.inj h)

theorem ofOption_inj {s s' : Option String} (h : ofOption s = ofOption s') : s = s' := by
  cases s with
  | none =>
    cases s' with
    | none => rfl
    | some s' => cases h
  | some s =>
    cases s' with
    | none => cases h
    | some s' => rw [Json.str.inj h]

end Json

namespace Settings

theorem plain_toSheet (c : Settings) (s : Setting) : (c.toSheet.value s).Plain := by
  cases s with
  | appRoots | libraryRoots | serviceCalls | receiverCalls => exact Json.plain_ofStrings _
  | receiverCallback | remoteMarker | binderRoot | serverNamespace | logLevel => exact .str _
  | pathsFile | callGraphFile | indexFile | logFile => exact Json.plain_ofOption _
  | console => exact .bool _

/-- Every setting has a place of its own in the sheet. -/
theorem toSheet_injective {c c' : Settings} (h : c.toSheet = c'.toSheet) : c = c' := by
  have hvalue : ∀ s, c.toSheet.value s = c'.toSheet.value s := fun s => by rw [h]
  cases c
  cases c'
  rw [Settings.mk.injEq]
  exact ⟨Json.ofStrings_inj (hvalue .appRoots), Json.ofStrings_inj (hvalue .libraryRoots),
    Json.ofStrings_inj (hvalue .serviceCalls), Json.ofStrings_inj (hvalue .receiverCalls),
    Json.str.inj (hvalue .receiverCallback), Json.str.inj (hvalue .remoteMarker),
    Json.str.inj (hvalue .binderRoot), Json.str.inj (hvalue .serverNamespace),
    Json.ofOption_inj (hvalue .pathsFile), Json.ofOption_inj (hvalue .callGraphFile),
    Json.ofOption_inj (hvalue .indexFile), Json.bool.inj (hvalue .console),
    Json.str.inj (hvalue .logLevel), Json.ofOption_inj (hvalue .logFile)⟩

/-- Settings that are written to a file are read from it, they and no others, and nothing is said
    about the file. -/
theorem loadSheet_write (c : Settings) (path : String) :
    Sheet.parse path c.toSheet.render = .ok (c.toSheet, []) ∧
      (∀ c' : Settings, c'.toSheet = c.toSheet ↔ c' = c) ∧
      ∀ w w' : Workspace, w.write path c.toSheet.render = .ok w' → ¬ w.Discards path →
        Command.loadSheet w' path = .ok (c.toSheet, []) := by
  have hparse := Sheet.parse_render c.plain_toSheet path
  refine ⟨hparse, fun c' => ⟨toSheet_injective, congrArg toSheet⟩, fun w w' hwrite hkept => ?_⟩
  unfold Command.loadSheet
  rw [Workspace.read_write hwrite hkept]
  dsimp only
  rw [Text.Utf8.decode?_encode]
  dsimp only
  rw [hparse]

/-- Settings with texts that need every kind of escape. -/
def escapedSettings : Settings where
  appRoots := ["", "a\"b\\c/d", "\n\r\t\x08\x0c\x00\x7f"]
  serviceCalls := []
  binderRoot := "é\uffff😀"
  pathsFile := none
  logFile := some "null"

theorem loadSheet_write_escaped :
    ∃ w', ({} : Workspace).write "c" escapedSettings.toSheet.render = .ok w' ∧
      ¬ Workspace.Discards {} "c" ∧
      Command.loadSheet w' "c" = .ok (escapedSettings.toSheet, []) := by
  have hlocate : Workspace.locate {} "c" = .ok ["c"] := rfl
  have hkept : ¬ Workspace.Discards {} "c" := Workspace.not_discards hlocate nofun
  exact ⟨_, rfl, hkept, (loadSheet_write escapedSettings "c").2.2 {} _ rfl hkept⟩

end Settings
end ServiceReach
