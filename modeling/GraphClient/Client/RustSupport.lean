/-!
# The support file of Rust clients
-/

namespace GraphClient.Rust

/-- The request and the error of a response that does not fit. -/
def supportLines : List String :=
  [
    "use serde::Serialize;",
    "use std::fmt;",
    "",
    "/// A request body ready to be serialized and posted.",
    "#[derive(Debug, Clone, Serialize)]",
    "#[serde(rename_all = \"camelCase\")]",
    "pub struct GraphQLRequest<V> \x7b",
    "    pub operation_name: &'static str,",
    "    pub query: &'static str,",
    "    pub variables: V,",
    "\x7d",
    "",
    "impl<V> GraphQLRequest<V> \x7b",
    "    pub fn new(operation_name: &'static str, query: &'static str, variables: V) -> Self \x7b",
    "        Self \x7b",
    "            operation_name,",
    "            query,",
    "            variables,",
    "        \x7d",
    "    \x7d",
    "\x7d",
    "",
    "/// A response that does not match the selection it was decoded for.",
    "#[derive(Debug, Clone, PartialEq, Eq)]",
    "pub struct ShapeMismatchError \x7b",
    "    message: String,",
    "\x7d",
    "",
    "impl ShapeMismatchError \x7b",
    "    pub fn new(message: impl Into<String>) -> Self \x7b",
    "        Self \x7b",
    "            message: message.into(),",
    "        \x7d",
    "    \x7d",
    "",
    "    pub fn message(&self) -> &str \x7b",
    "        &self.message",
    "    \x7d",
    "\x7d",
    "",
    "impl fmt::Display for ShapeMismatchError \x7b",
    "    fn fmt(&self, f: &mut fmt::Formatter<'_>) -> fmt::Result \x7b",
    "        write!(f, \"response does not match the selection: \x7b\x7d\", self.message)",
    "    \x7d",
    "\x7d",
    "",
    "impl std::error::Error for ShapeMismatchError \x7b\x7d",
    "",
    "impl From<serde_json::Error> for ShapeMismatchError \x7b",
    "    fn from(error: serde_json::Error) -> Self \x7b",
    "        Self::new(error.to_string())",
    "    \x7d",
    "\x7d"
  ]

end GraphClient.Rust
