/-!
# The support file of Kotlin clients
-/

namespace GraphClient.Kotlin

/-- The request, the error of a response that does not fit, and the JSON settings. -/
def supportLines : List String :=
  [
    "/** A request body ready to be serialized and posted. */",
    "@Serializable",
    "data class GraphQLRequest<V>(",
    "    val operationName: String,",
    "    val query: String,",
    "    val variables: V,",
    ")",
    "",
    "/** Thrown when a response does not match the selection it was decoded for. */",
    "class ShapeMismatchError(message: String, cause: Throwable? = null) : Exception(message, cause)",
    "",
    "/** Json configuration shared by every generated operation. */",
    "@OptIn(ExperimentalSerializationApi::class)",
    "val GraphQLJson: Json = Json \x7b",
    "    classDiscriminator = \"__typename\"",
    "    explicitNulls = false",
    "\x7d",
    "",
    "fun <V> encodeRequest(request: GraphQLRequest<V>, variables: KSerializer<V>): JsonElement =",
    "    GraphQLJson.encodeToJsonElement(GraphQLRequest.serializer(variables), request)",
    "",
    "fun <T> decodeShape(deserializer: DeserializationStrategy<T>, data: JsonElement): T =",
    "    try \x7b",
    "        GraphQLJson.decodeFromJsonElement(deserializer, data)",
    "    \x7d catch (error: IllegalArgumentException) \x7b",
    "        throw ShapeMismatchError(error.message ?: \"response does not match the selection\", error)",
    "    \x7d"
  ]

end GraphClient.Kotlin
