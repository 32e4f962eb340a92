import CodeAtlas.Graph.Basic

/-!
# Kinds of records

Every record that the library writes has a form, so that a record can also be made from loose
values.
-/

namespace CodeAtlas

/-- The kinds of records. -/
inductive RecordKind where
  | position
  | vulnerability
  | metrics
  | node
  | edgeDetails
  | edge
  | metadata
  | graph
  | filter
  | buildOptions
  | entity
  | importLine
  | exportLine
  | outline
  | hit
  | usage
  | impact
  | impactReport
  | rippleNode
  | rippleLayer
  | ripple
  | estimate
  | suggestion
  | issueCounts
  | adviceReport
  | adviceOptions
deriving DecidableEq

namespace RecordKind

/-- A field that must be given. -/
def required (name : String) : String × Option Json := (name, none)

/-- A field with a default. -/
def optional (name : String) (value : Json) : String × Option Json := (name, some value)

/-- The fields of a filter. -/
def filterForm : Form :=
  [optional "node_types" (.strs ["file", "function", "class"]),
    optional "edge_types" (.strs ["imports", "calls", "extends"]),
    optional "impact_threshold" .null, optional "vulnerability_filter" (.str "all"),
    optional "exclude_patterns" (.arr []), optional "include_patterns" (.arr [])]

/-- The record of the defaults. -/
def blankRecord (form : Form) : Json :=
  .record (form.map fun (name, value) => (name, value.getD .null))

/-- The fields of a kind of record, made at the time `now`. -/
def form (now : String) : RecordKind → Form
  | .position => [required "x", required "y"]
  | .vulnerability =>
    [required "id", required "severity", required "title", optional "cwe" .null,
      optional "affected_versions" .null]
  | .metrics =>
    [optional "complexity" (.int 0), optional "change_frequency" (.int 0),
      optional "impact_score" (.int 0), optional "test_coverage" .null,
      optional "lines_of_code" .null, optional "cyclomatic_complexity" .null]
  | .node =>
    [required "id", required "type", required "name", required "path",
      optional "metrics" (Metrics.record {}), optional "vulnerabilities" (.arr []),
      optional "start_line" .null, optional "end_line" .null, optional "language" .null,
      optional "parent_id" .null, optional "children" (.arr []), optional "position" .null]
  | .edgeDetails =>
    [optional "line_number" .null, optional "is_circular" .null, optional "count" (.int 1)]
  | .edge =>
    [required "id", required "source", required "target", required "type",
      optional "weight" (.float 1), optional "metadata" (Edge.between "" "" "").details]
  | .metadata =>
    [optional "total_nodes" (.int 0), optional "total_edges" (.int 0),
      optional "max_depth" (.int 0),
      optional "root_file" .null, optional "generated_at" (.str now),
      optional "files_discovered" (.int 0), optional "files_parsed" (.int 0),
      optional "files_skipped" (.int 0), optional "enrichment_applied" (.bool false)]
  | .graph =>
    [required "nodes", required "edges",
      optional "metadata" (Metadata.record { generatedAt := now })]
  | .filter => filterForm
  | .buildOptions =>
    [required "root_file", optional "depth" (.int 5), optional "include_external" (.bool false),
      optional "layout" (.str "force"), optional "filters" (blankRecord filterForm)]
  | .entity =>
    [required "id", required "type", required "name", required "start_line", required "end_line",
      optional "parent_id" .null]
  | .importLine =>
    [required "source", optional "specifiers" (.arr []), optional "is_default" (.bool false),
      optional "line" (.int 0)]
  | .exportLine =>
    [required "name", optional "is_default" (.bool false), optional "line" (.int 0)]
  | .outline =>
    [required "path", required "language", optional "entities" (.arr []),
      optional "imports" (.arr []), optional "exports" (.arr [])]
  | .hit =>
    [required "score", optional "content" (.str ""), optional "metadata" (.obj []),
      optional "id" (.str "")]
  | .usage =>
    [required "file_path", required "line", required "context", required "usage_type"]
  | .impact =>
    [required "symbol", required "file_path", required "impact_level", required "impact_score",
      required "usages", required "depth", required "reason"]
  | .impactReport =>
    [required "target_symbol", required "target_file", required "total_impact", required "impacts",
      required "graph_depth", optional "analysis_timestamp" (.str now)]
  | .rippleNode =>
    [required "id", required "name", required "file_path", required "depth", required "severity",
      required "impact_score", required "usage_count", required "usage_types",
      optional "position" .null, optional "angle" .null, optional "radius" .null]
  | .rippleLayer =>
    [required "depth", required "severity", required "nodes", required "total_impact"]
  | .ripple =>
    [required "symbol", required "file_path", required "layers", optional "total_affected" (.int 0),
      optional "critical_count" (.int 0), optional "high_count" (.int 0),
      optional "medium_count" (.int 0), optional "low_count" (.int 0)]
  | .estimate => [required "files_affected", required "test_coverage", required "risk_level"]
  | .suggestion =>
    [required "id", required "type", required "severity", required "entities",
      required "description", required "suggested_refactoring", required "estimated_impact",
      required "confidence", optional "references" (.arr [])]
  | .issueCounts =>
    [optional "total_issues" (.int 0), optional "critical_count" (.int 0),
      optional "warning_count" (.int 0), optional "info_count" (.int 0)]
  | .adviceReport =>
    [required "suggestions", required "health_score", required "statistics", required "summary"]
  | .adviceOptions =>
    [optional "target_path" .null,
      optional "issue_types"
        (.strs ["circular-dependency", "god-class", "tight-coupling", "dead-code"]),
      optional "min_confidence" (.float 0.5),
      optional "include_refactoring_suggestions" (.bool false)]

end RecordKind

end CodeAtlas
